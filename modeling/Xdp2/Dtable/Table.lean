import Xdp2.Lib.Ranked

/-!
# Dynamic tables

The dynamic plain, ternary and longest prefix match tables of `dtable.c`. An entry is in two lists:
`entries`, by identifier, and `entries_lookup`, in the order of a lookup. Both hold the entries with
their contents, each known by the number of entries allocated before it; a change is made in both.
`malloc` is an argument that says whether it succeeds.

The kinds of table differ in what they keep with a key, in the search of the list for lookups and in
what an add returns: `DtableKind` has that.
-/

namespace Xdp2

open Ranked

/-! ## Comparing keys -/

/-- A key of `n` bytes. -/
abbrev Key (n : Nat) := Fin n → UInt8

/-- The value of an `int`. -/
def toInt32 (x : Int) : Int := (BitVec.ofInt 32 x).toInt

/-- `xdp2_compare_equal`, for whole keys. -/
def compareEqual (f1 f2 : Key n) : Bool := decide (∀ i, f1 i = f2 i)

/-- The loop of `xdp2_compare_tern`. Its counter is an `int`: it does not go on from the last value. -/
def compareTernFrom (f1 f2 mask : Key n) : (rest i : Nat) → Option Bool
  | 0, _ => some true
  | rest + 1, i =>
    if h : i < n then
      if (f1 ⟨i, h⟩ ^^^ f2 ⟨i, h⟩) &&& mask ⟨i, h⟩ ≠ 0 then some false
      else if i + 1 = 2 ^ 31 then none
      else compareTernFrom f1 f2 mask rest (i + 1)
    else some true

/-- `xdp2_compare_tern`, for whole keys, or `none` if the counter overflows. -/
def compareTern (f1 f2 mask : Key n) : Option Bool := compareTernFrom f1 f2 mask n 0

/-- `memcmp` of the first `size` bytes, which are equal or not, or `none` if there are not as many. -/
def memcmpEq (f1 f2 : Key n) (size : Nat) : Option Bool :=
  if n < size then none else some (decide (∀ i : Fin n, i.val < size → f1 i = f2 i))

/-- `xdp2_compare_prefix`, or `none` if it reads behind a key. The number of whole bytes is an `int`, and is
a `size_t` where `memcmp` is called. -/
def comparePrefix (f1 f2 : Key n) (prefix_len : Nat) : Option Bool := do
  let div := toInt32 (prefix_len / 8 : Nat)
  let mod := prefix_len % 8
  if !(← memcmpEq f1 f2 (div % 2 ^ 64).toNat) then some false
  else if mod = 0 then some true
  else if h : div.toNat < n then
    let mask : UInt8 := 0xff <<< UInt8.ofNat (8 - mod)
    some ((f1 ⟨div.toNat, h⟩ ^^^ f2 ⟨div.toNat, h⟩) &&& mask == 0)
  else none

/-! ## Tables -/

/-- `struct xdp2_dtable_entry`, with its target and what is kept with its key. -/
structure DtableEntry (κ τ : Type) where
  num : Nat
  ident : Int
  target : τ
  keyinfo : κ

/-- `struct xdp2_dtable_table`. The number of entries allocated so far is not a field of it. -/
structure DtableTable (κ τ : Type) where
  default_target : τ
  entries : List (DtableEntry κ τ) := []
  entries_lookup : List (DtableEntry κ τ) := []
  allocs : Nat := 0

/-- `BASE_IDENT`. -/
def baseIdent : Int := 1000000

/-- `-EALREADY`. -/
def ealready : Int := -114

/-- `-ENOENT`. -/
def enoent : Int := -2

/-- `-ENOMEM`, as the functions here return it. -/
def dtableEnomem : Int := -12

section
variable {κ τ : Type}

/-- The loop of `xdp2_dtable_add` over the entries by identifier: the values of `*ident`, `want_ident` and
`pentry` behind it, or `none` if the identifier is taken. -/
def addScan (ident want_ident : Int) (pentry : Option (DtableEntry κ τ)) :
    List (DtableEntry κ τ) → Option (Int × Int × Option (DtableEntry κ τ))
  | [] => some (ident, want_ident, pentry)
  | entry :: entries =>
    if ident ≠ 0 then
      if entry.ident = ident then none
      else if entry.ident > ident then some (ident, want_ident, pentry)
      else addScan ident want_ident (some entry) entries
    else if entry.ident < baseIdent then addScan ident want_ident pentry entries
    else if entry.ident ≠ want_ident then some (want_ident, want_ident, pentry)
    else addScan ident (toInt32 (want_ident + 1)) (some entry) entries

/-- `xdp2_dtable_add`, with what its callers write to the key of the new entry: the table and the
identifier. -/
def dtableAdd (malloc : Bool) (table : DtableTable κ τ) (plentry : Option (DtableEntry κ τ)) (ident : Int)
    (target : τ) (keyinfo : κ) : Option (DtableTable κ τ × Int) :=
  match addScan ident baseIdent none table.entries with
  | none => none
  | some (ident, want_ident, pentry) =>
    if want_ident < 0 then none
    else if !malloc then none
    else
      let ident := if ident = 0 then want_ident else ident
      let entry : DtableEntry κ τ := ⟨table.allocs, ident, target, keyinfo⟩
      some ({ table with
        entries := insertAfter DtableEntry.num pentry entry table.entries
        entries_lookup := insertAfter DtableEntry.num plentry entry table.entries_lookup
        allocs := table.allocs + 1 }, ident)

/-- `xdp2_dtable_del`. -/
def dtableDel (table : DtableTable κ τ) (entry : DtableEntry κ τ) : DtableTable κ τ :=
  { table with
    entries := table.entries.filter fun e => e.num ≠ entry.num
    entries_lookup := table.entries_lookup.filter fun e => e.num ≠ entry.num }

/-- The entry with another target, if it is the one with the number `num`. -/
def DtableEntry.retarget (num : Nat) (target : τ) (e : DtableEntry κ τ) : DtableEntry κ τ :=
  if e.num = num then { e with target := target } else e

/-- `xdp2_dtable_change`. -/
def dtableChange (table : DtableTable κ τ) (entry : DtableEntry κ τ) (target : τ) : DtableTable κ τ :=
  { table with
    entries := table.entries.map (DtableEntry.retarget entry.num target)
    entries_lookup := table.entries_lookup.map (DtableEntry.retarget entry.num target) }

/-- The value of an `int` as an `unsigned int`. -/
def toUInt32 (x : Int) : Nat := (x % 2 ^ 32).toNat

/-- `xdp2_dtable_find_ent_by_id`. -/
def dtableFindEntById (table : DtableTable κ τ) (ident : Nat) : Option (DtableEntry κ τ) :=
  (search (fun e => ident < toUInt32 e.ident) (fun e => toUInt32 e.ident = ident) none table.entries).1

/-- `xdp2_dtable_del_by_id`, as it is called for each kind of table. -/
def dtableDelById (table : DtableTable κ τ) (ident : Int) : DtableTable κ τ :=
  match dtableFindEntById table (toUInt32 ident) with
  | some entry => dtableDel table entry
  | none => table

/-- `xdp2_dtable_change_by_id`, as it is called for each kind of table. -/
def dtableChangeById (table : DtableTable κ τ) (ident : Int) (target : τ) : DtableTable κ τ × Int :=
  match dtableFindEntById table (toUInt32 ident) with
  | none => (table, enoent)
  | some entry => (dtableChange table entry target, 0)

/-! ## The kinds of tables -/

/-- How the list for lookups is searched, for what is kept with a key: whether the search ends before an
entry, and whether an entry is the one looked for. `addRet` is what is returned for a new entry, by its
identifier. -/
structure DtableKind (κ : Type) where
  past : κ → κ → Bool
  same : κ → κ → Bool
  addRet : Int → Int

/-- `__xdp2_dtable_find_plain`, `__xdp2_dtable_find_tern` and `__xdp2_dtable_find_lpm`: the entry and the
one before it. -/
def dtableFind (kind : DtableKind κ) (table : DtableTable κ τ) (q : κ) :
    Option (DtableEntry κ τ) × Option (DtableEntry κ τ) :=
  search (fun e => kind.past q e.keyinfo) (fun e => kind.same q e.keyinfo) none table.entries_lookup

/-- `xdp2_dtable_add_plain`, `xdp2_dtable_add_tern` and `xdp2_dtable_add_lpm`. -/
def dtableAddBy (kind : DtableKind κ) (malloc : Bool) (table : DtableTable κ τ) (ident : Int) (q : κ)
    (target : τ) : DtableTable κ τ × Int :=
  match dtableFind kind table q with
  | (some _, _) => (table, ealready)
  | (none, prev_entry) =>
    match dtableAdd malloc table prev_entry ident target q with
    | none => (table, dtableEnomem)
    | some (table, ident) => (table, kind.addRet ident)

/-- `xdp2_dtable_del_plain`, `xdp2_dtable_del_tern` and `xdp2_dtable_del_lpm`. -/
def dtableDelBy (kind : DtableKind κ) (table : DtableTable κ τ) (q : κ) : DtableTable κ τ :=
  match (dtableFind kind table q).1 with
  | some entry => dtableDel table entry
  | none => table

/-- `xdp2_dtable_change_plain`, `xdp2_dtable_change_tern` and `xdp2_dtable_change_lpm`. -/
def dtableChangeBy (kind : DtableKind κ) (table : DtableTable κ τ) (q : κ) (target : τ) :
    DtableTable κ τ × Int :=
  match (dtableFind kind table q).1 with
  | none => (table, enoent)
  | some entry => (dtableChange table entry target, 0)

/-- The target a lookup returns, by the entry it has found. -/
def DtableTable.target (table : DtableTable κ τ) : Option (DtableEntry κ τ) → τ
  | some entry => entry.target
  | none => table.default_target

end

section
variable {τ : Type}

/-! ### Plain tables -/

/-- `struct xdp2_plain_entry_key`. -/
structure PlainEntryKey (n : Nat) where
  hash : UInt64
  key : Key n

def plainKind (n : Nat) : DtableKind (PlainEntryKey n) where
  past q e := e.hash > q.hash
  same q e := e.hash = q.hash && compareEqual e.key q.key
  addRet ident := ident

/-- What is kept with a key, for a hash function in place of `siphash`. -/
def plainKey (siphash : Key n → UInt64) (key : Key n) : PlainEntryKey n := ⟨siphash key, key⟩

/-- `xdp2_dtable_add_plain`. -/
def dtableAddPlain (siphash : Key n → UInt64) (malloc : Bool) (table : DtableTable (PlainEntryKey n) τ)
    (ident : Int) (key : Key n) (target : τ) : DtableTable (PlainEntryKey n) τ × Int :=
  dtableAddBy (plainKind n) malloc table ident (plainKey siphash key) target

/-- `xdp2_dtable_del_plain`. -/
def dtableDelPlain (siphash : Key n → UInt64) (table : DtableTable (PlainEntryKey n) τ) (key : Key n) :
    DtableTable (PlainEntryKey n) τ :=
  dtableDelBy (plainKind n) table (plainKey siphash key)

/-- `xdp2_dtable_change_plain`. -/
def dtableChangePlain (siphash : Key n → UInt64) (table : DtableTable (PlainEntryKey n) τ) (key : Key n)
    (target : τ) : DtableTable (PlainEntryKey n) τ × Int :=
  dtableChangeBy (plainKind n) table (plainKey siphash key) target

/-- `xdp2_dtable_lookup_plain`: the entry found, if any. -/
def dtableLookupPlain (siphash : Key n → UInt64) (table : DtableTable (PlainEntryKey n) τ) (key : Key n) :
    Option (DtableEntry (PlainEntryKey n) τ) :=
  (search (fun e => e.keyinfo.hash > siphash key)
    (fun e => e.keyinfo.hash = siphash key && compareEqual e.keyinfo.key key) none
    table.entries_lookup).1

/-! ### Ternary tables -/

/-- `struct xdp2_tern_entry_key`: the key is followed by the mask. -/
structure TernEntryKey (n : Nat) where
  pos : Nat
  key : Key n
  key_mask : Key n

def ternKind (n : Nat) : DtableKind (TernEntryKey n) where
  past q e := e.pos > q.pos
  same q e := compareEqual e.key q.key && compareEqual e.key_mask q.key_mask
  addRet _ := 0

/-- `xdp2_dtable_add_tern`. -/
def dtableAddTern (malloc : Bool) (table : DtableTable (TernEntryKey n) τ) (ident : Int)
    (key key_mask : Key n) (pos : Nat) (target : τ) : DtableTable (TernEntryKey n) τ × Int :=
  dtableAddBy (ternKind n) malloc table ident ⟨pos, key, key_mask⟩ target

/-- `xdp2_dtable_del_tern`. -/
def dtableDelTern (table : DtableTable (TernEntryKey n) τ) (key key_mask : Key n) (pos : Nat) :
    DtableTable (TernEntryKey n) τ :=
  dtableDelBy (ternKind n) table ⟨pos, key, key_mask⟩

/-- `xdp2_dtable_change_tern`. -/
def dtableChangeTern (table : DtableTable (TernEntryKey n) τ) (key key_mask : Key n) (pos : Nat)
    (target : τ) : DtableTable (TernEntryKey n) τ × Int :=
  dtableChangeBy (ternKind n) table ⟨pos, key, key_mask⟩ target

/-- The loop of a lookup that returns the first entry that matches, or `none` where the comparison
fails. -/
def firstMatch {κ : Type} (cmp : κ → Option Bool) :
    List (DtableEntry κ τ) → Option (Option (DtableEntry κ τ))
  | [] => some none
  | entry :: entries =>
    match cmp entry.keyinfo with
    | none => none
    | some true => some (some entry)
    | some false => firstMatch cmp entries

/-- `xdp2_dtable_lookup_tern`. -/
def dtableLookupTern (table : DtableTable (TernEntryKey n) τ) (key : Key n) :
    Option (Option (DtableEntry (TernEntryKey n) τ)) :=
  firstMatch (fun k => compareTern k.key key k.key_mask) table.entries_lookup

/-! ### Longest prefix match tables -/

/-- `struct xdp2_lpm_entry_key`. -/
structure LpmEntryKey (n : Nat) where
  prefix_len : Nat
  key : Key n

def lpmKind (n : Nat) : DtableKind (LpmEntryKey n) where
  past q e := e.prefix_len < q.prefix_len
  same q e := compareEqual e.key q.key && e.prefix_len = q.prefix_len
  addRet _ := 0

/-- `xdp2_dtable_add_lpm`. -/
def dtableAddLpm (malloc : Bool) (table : DtableTable (LpmEntryKey n) τ) (ident : Int) (key : Key n)
    (prefix_len : Nat) (target : τ) : DtableTable (LpmEntryKey n) τ × Int :=
  dtableAddBy (lpmKind n) malloc table ident ⟨prefix_len, key⟩ target

/-- `xdp2_dtable_del_lpm`. -/
def dtableDelLpm (table : DtableTable (LpmEntryKey n) τ) (key : Key n) (prefix_len : Nat) :
    DtableTable (LpmEntryKey n) τ :=
  dtableDelBy (lpmKind n) table ⟨prefix_len, key⟩

/-- `xdp2_dtable_change_lpm`. -/
def dtableChangeLpm (table : DtableTable (LpmEntryKey n) τ) (key : Key n) (prefix_len : Nat) (target : τ) :
    DtableTable (LpmEntryKey n) τ × Int :=
  dtableChangeBy (lpmKind n) table ⟨prefix_len, key⟩ target

/-- `xdp2_dtable_lookup_lpm`. -/
def dtableLookupLpm (table : DtableTable (LpmEntryKey n) τ) (key : Key n) :
    Option (Option (DtableEntry (LpmEntryKey n) τ)) :=
  firstMatch (fun k => comparePrefix k.key key k.prefix_len) table.entries_lookup

end

end Xdp2
