import Mathlib.Data.List.Forall2
import Xdp2.Lib.Abut
import Xdp2.Lib.StateError
import Xdp2.Parser.Sub

/-!
# Flag-fields

The fields that the flags of a header announce lie one behind the other, in the order of their
descriptors. `xdp2_parse_flag_fields` computes the offset of each from the sizes of those before it, and
so hands every node the range of its field (`flagFields_tile_iff`). The function that the compiler's C
template makes for a node goes over the entries of its table instead, with a running pointer that it
moves by the size of the first descriptor, whichever field it has come to: `generatedFlagFields_iff` says
when it makes the same calls.
-/

namespace Xdp2

open StateError

variable {α : Type} {fields : List FlagField} {flags : UInt32}

/-! ## Visits -/

/-- A visit of a flag-field node: the node, and the offset and the size of the field. -/
structure FieldVisit where
  id : FlagFieldId
  off : Nat
  size : Nat

/-- The callbacks of a flag-field node, for a field at `cp`. -/
def callField (g : Graph α) (frame : Nat) (cp : Hdr) (size : Nat) (id : FlagFieldId) : ParseM α Unit := do
  callExtract (.flagField id) (g.flagField id) (some cp) size frame
  callHandlerVoid (.flagField id) .handler (g.flagField id).handler (some cp) size frame

def visitFields (g : Graph α) (frame : Nat) (hdr : Hdr) : List FieldVisit → ParseM α Int
  | [] => return Code.okay
  | v :: vs => do
    callField g frame (hdr.add v.off) v.size v.id
    visitFields g frame hdr vs

/-- The nodes of the fields present, each with the field and its index. -/
def presentFields (table : List Entry) (flags : UInt32) (fields : List FlagField) (rest : List (FlagField × Nat)) :
    List (Nat × FlagField × FlagFieldId) :=
  rest.filterMap fun x =>
    if flagFieldsOffset x.2 x.1 flags fields < 0 then none
    else (lookupFlagFieldNode x.2 table).map fun id => (x.2, x.1, id)

/-- The visit of a field with its own range. -/
def ownVisit (flags : UInt32) (fields : List FlagField) (x : Nat × FlagField × FlagFieldId) : FieldVisit :=
  ⟨x.2.2, usize (flagFieldsOffset x.1 x.2.1 flags fields), x.2.1.size⟩

theorem parseFlagFieldsFrom_eq (i : Nat) (rest : List FlagField) :
    parseFlagFieldsFrom g ⟨some table⟩ flags fields hdr frame i rest = visitFields g frame hdr
      ((presentFields table flags fields (rest.zipIdx i)).map (ownVisit flags fields)) := by
  induction rest generalizing i with
  | nil => rfl
  | cons f rest ih =>
    rw [parseFlagFieldsFrom, ih, List.zipIdx_cons]
    by_cases hoff : flagFieldsOffset i f flags fields < 0
    · simp [presentFields, hoff]
    · cases hlook : lookupFlagFieldNode i table with
      | none => simp [presentFields, hoff, hlook, parseOneFlagField, deref]
      | some id => simp [presentFields, hoff, hlook, parseOneFlagField, deref, visitFields, callField, ownVisit]

/-! ## The generated function -/

/-- `flag_fields[index]`, if there is such a descriptor. -/
def fieldAt (fields : List FlagField) (index : Int) : Option FlagField :=
  if index < 0 then none else fields[index.toNat]?

/-- `flag_fields->size`: `flag_fields` points to the first descriptor. -/
def firstSize (fields : List FlagField) : Nat := (fields.head?.map FlagField.size).getD 0

/-- The statements that the template `generate_protocol_fields_parse_function` has for the nodes in
the table. An index with no descriptor is read behind the array. -/
def generatedFields (g : Graph α) (fflags : UInt32) (fields : List FlagField) (frame : Nat) :
    List Entry → Hdr → ParseM α Int
  | [], _ => return Code.okay
  | e :: table, hdr => do
    let flag_field ← deref (fieldAt fields e.value)
    if flag_field.present fflags then
      e.node.forM (callField g frame hdr (firstSize fields))
      generatedFields g fflags fields frame table (hdr.add (firstSize fields))
    else generatedFields g fflags fields frame table hdr

/-- The function that the template makes for a flag-fields node. -/
def generatedFlagFields (g : Graph α) (table : List Entry) (d : ProtoFlagFieldsDef) (hdr : Hdr)
    (frame : Nat) : ParseM α Int :=
  if d.get_flags hdr ≠ 0 then
    generatedFields g (d.get_flags hdr) d.flag_fields frame table (hdr.add (d.start_fields_offset hdr))
  else return Code.okay

/-- The nodes of the table whose field is present, each with the number of such entries before it. -/
def presentEntries (flags : UInt32) (fields : List FlagField) : Nat → List Entry → List (Nat × FlagFieldId)
  | _, [] => []
  | k, e :: table =>
    if (fieldAt fields e.value).any (FlagField.present flags) then
      (e.node.map fun id => (k, id)).toList ++ presentEntries flags fields (k + 1) table
    else presentEntries flags fields k table

/-- The visit of a node with the range that the generated function has for it. -/
def runningVisit (fields : List FlagField) (x : Nat × FlagFieldId) : FieldVisit :=
  ⟨x.2, x.1 * firstSize fields, firstSize fields⟩

theorem generatedFields_eq (hrange : ∀ e ∈ table, (fieldAt fields e.value).isSome) (k : Nat) :
    generatedFields g flags fields frame table (hdr.add (k * firstSize fields)) =
      visitFields g frame hdr ((presentEntries flags fields k table).map (runningVisit fields)) := by
  induction table generalizing k with
  | nil => rfl
  | cons e table ih =>
    simp only [List.forall_mem_cons] at hrange
    obtain ⟨f, hf⟩ := Option.isSome_iff_exists.mp hrange.1
    have hnext := ih hrange.2 (k + 1)
    rw [Nat.add_mul, Nat.one_mul, ← Hdr.add_add] at hnext
    rw [generatedFields, presentEntries, hf]
    cases hp : f.present flags with
    | false => simp [deref, hp, ih hrange.2 k]
    | true =>
      cases hnode : e.node with
      | none => simp [deref, hp, hnext]
      | some id => simp [deref, hp, hnext, visitFields, runningVisit]

theorem generatedFields_ne_ok (he : e ∈ table) (hnone : fieldAt fields e.value = none) (s : St α)
    (r : Int) (s' : St α) : (generatedFields g flags fields frame table hdr).run s ≠ .ok r s' := by
  induction table generalizing hdr s with
  | nil => cases he
  | cons e' table ih =>
    intro hrun
    rw [generatedFields] at hrun
    obtain ⟨f, s1, hf, hrun⟩ := run_bind_eq_ok hrun
    rcases List.mem_cons.mp he with rfl | he
    · rw [hnone] at hf
      cases hf
    · split at hrun
      · obtain ⟨-, s2, -, hrun⟩ := run_bind_eq_ok hrun
        exact ih he s2 hrun
      · exact ih he s1 hrun

/-! ## The two compared -/

/-- **When the generated function does what `xdp2_parse_flag_fields` does.** With no flag set no field
present has a node. Else the table has indices of descriptors only, and the fields present that have a
node and the entries of the table whose field is present are for the same nodes in the same order, all
of them of the size of the first descriptor and at that many times this size as there are entries
before. -/
def FieldsAlike (table : List Entry) (flags : UInt32) (fields : List FlagField) : Prop :=
  if flags = 0 then presentFields table flags fields fields.zipIdx = []
  else (∀ e ∈ table, (fieldAt fields e.value).isSome) ∧
    List.Forall₂ (fun x y => x.2.2 = y.2 ∧ x.2.1.size = firstSize fields ∧
        usize (flagFieldsOffset x.1 x.2.1 flags fields) % 2 ^ 64 = y.1 * firstSize fields % 2 ^ 64)
      (presentFields table flags fields fields.zipIdx) (presentEntries flags fields 0 table)

/-- A graph whose flag-field nodes all have a handler. -/
def fieldHandlers : Graph Unit where
  node _ := { proto_def := none }
  tlv _ := {}
  flagField _ := { handler := some fun _ mem => (Code.okay, mem) }
  arrel _ := {}

/-- The call that a visit makes there. -/
def handled (frame : Nat) (hdr : Hdr) (v : FieldVisit) : Event :=
  .call ⟨.flagField v.id, .handler, some (ptrAdd hdr.off v.off), v.size, frame, Code.okay⟩

theorem visitFields_handlerGraph (vs : List FieldVisit) (s : St Unit) :
    (visitFields fieldHandlers frame hdr vs).run s =
      .ok Code.okay ⟨s.var, s.mem, s.log ++ vs.map (handled frame hdr)⟩ := by
  induction vs generalizing s with
  | nil => simp [visitFields]
  | cons v vs ih =>
    have hcall : (callField fieldHandlers frame (hdr.add v.off) v.size v.id).run s =
      .ok () (s.push (handled frame hdr v)) := rfl
    rw [visitFields, run_bind_ok hcall, ih]
    simp [St.push]

theorem ptrAdd_inj : ptrAdd a b = ptrAdd a c ↔ b % 2 ^ 64 = c % 2 ^ 64 := by
  unfold ptrAdd
  omega

theorem handled_eq : handled frame hdr v = handled frame hdr w ↔
    v.id = w.id ∧ v.size = w.size ∧ v.off % 2 ^ 64 = w.off % 2 ^ 64 := by
  simp [handled, ptrAdd_inj, and_comm]

theorem visitFields_congr
    (h : List.Forall₂ (fun v w => handled frame hdr v = handled frame hdr w) vs ws) :
    visitFields g frame hdr vs = visitFields g frame hdr ws := by
  induction h with
  | nil => rfl
  | @cons v w vs ws hvw _ ih =>
    obtain ⟨hid, hsize, hoff⟩ := handled_eq.mp hvw
    have hptr : hdr.add v.off = hdr.add w.off := by simp [Hdr.add, ptrAdd_inj.mpr hoff]
    rw [visitFields, visitFields, ih, hid, hsize, hptr]

/-- Two fields, of two bytes and of four, that a table has in this order. -/
def twoFields : ProtoFlagFieldsDef := ⟨fun _ => 3, fun _ => 4, [⟨1, 0, 2⟩, ⟨2, 0, 4⟩]⟩

/-- `xdp2_flag_fields_length`, or `none` if the counter, an `int`, overflows. The number of fields is passed as
a `__u32`. -/
def flagFieldsLength (flags : UInt32) (fields : List FlagField) : Option Nat :=
  let targ_idx := fields.length % 2 ^ 32
  if targ_idx < 2 ^ 31 then some (usize (flagFieldsOffsetOf targ_idx flags fields)) else none

/-- `xdp2_parse_flag_fields`, whose counter is an `int` as well. -/
def countedFlagFields (g : Graph α) (n : ParseFlagFieldsNode) (d : ProtoFlagFieldsDef) (hdr : Hdr)
    (frame : Nat) : ParseM α Int := do
  let ret ← xdp2ParseFlagFields g n d hdr frame
  if d.flag_fields.length < 2 ^ 31 then return ret else throw .fault

/-- The fields present, with their indices. -/
def presentIdx (flags : UInt32) (fields : List FlagField) : List (FlagField × Nat) :=
  fields.zipIdx.filter fun x => x.1.present flags

/-- The fields present tile the range up to the length, the others have no offset, and every node is handed
the range of its field. -/
structure FieldsTile (flags : UInt32) (fields : List FlagField) : Prop where
  tiles : ∃ len, flagFieldsLength flags fields = some len ∧
    Abut.Covers (fun x => usize (flagFieldsOffset x.2 x.1 flags fields)) (fun x => x.1.size) 0
      (presentIdx flags fields) len
  absent : ∀ x ∈ fields.zipIdx, flagFieldsOffset x.2 x.1 flags fields = -1 ↔ x.1.present flags = false
  handed : ∀ (α : Type) (g : Graph α) table d hdr frame, d.flag_fields = fields → d.get_flags hdr = flags →
    countedFlagFields g ⟨some table⟩ d hdr frame = visitFields g frame (hdr.add (d.start_fields_offset hdr))
      ((presentIdx flags fields).filterMap fun x => (lookupFlagFieldNode x.2 table).map fun id =>
        ⟨id, usize (flagFieldsOffset x.2 x.1 flags fields), x.1.size⟩)

/-- The length of the fields present. -/
def presentLen (flags : UInt32) (l : List FlagField) : Nat :=
  ((l.filter (FlagField.present flags)).map FlagField.size).sum

theorem presentLen_concat (l : List FlagField) (f : FlagField) :
    presentLen flags (l ++ [f]) = presentLen flags l + if f.present flags then f.size else 0 := by
  cases hp : f.present flags <;> simp [presentLen, hp]

theorem foldl_presentLen (l : List FlagField) (h : presentLen flags l < 2 ^ 64) :
    l.foldl (fun offset f => if f.present flags then (offset + f.size) % 2 ^ 64 else offset) 0 =
      presentLen flags l := by
  induction l using List.reverseRecOn with
  | nil => rfl
  | append_singleton l f ih =>
    rw [presentLen_concat] at h ⊢
    rw [List.foldl_concat, ih (by omega)]
    cases hp : f.present flags with
    | true =>
      rw [hp, if_pos rfl] at h
      exact Nat.mod_eq_of_lt h
    | false => rfl

theorem flagFieldsOffsetOf_eq (flags : UInt32) (fields : List FlagField) (k : Nat)
    (h : presentLen flags (fields.take k) < 2 ^ 63) :
    flagFieldsOffsetOf k flags fields = presentLen flags (fields.take k) := by
  rw [flagFieldsOffsetOf, foldl_presentLen _ (by omega)]
  exact Int.bmod_eq_of_le_mul_two (by omega) (by omega)

section
variable (hsum : (fields.map FlagField.size).sum < 2 ^ 63)
include hsum

theorem flagFieldsOffset_eq (hp : f.present flags = true) :
    flagFieldsOffset i f flags fields = presentLen flags (fields.take i) := by
  have hle : presentLen flags (fields.take i) ≤ (fields.map FlagField.size).sum :=
    ((List.filter_sublist.trans (List.take_sublist i fields)).map FlagField.size).sum_le_sum (by simp)
  rw [flagFieldsOffset, if_pos hp, flagFieldsOffsetOf_eq _ _ _ (Nat.lt_of_le_of_lt hle hsum)]

theorem flagFieldsOffset_neg :
    flagFieldsOffset i f flags fields < 0 ↔ f.present flags = false := by
  cases hp : f.present flags with
  | true => simp [flagFieldsOffset_eq hsum hp]
  | false => simp [flagFieldsOffset, hp]

theorem covers_from (before rest : List FlagField) (heq : fields = before ++ rest) :
    Abut.Covers (fun x => usize (flagFieldsOffset x.2 x.1 flags fields)) (fun x => x.1.size)
      (presentLen flags before) ((rest.zipIdx before.length).filter fun x => x.1.present flags)
      (presentLen flags fields) := by
  induction rest generalizing before with
  | nil =>
    rw [heq, List.append_nil]
    exact .nil
  | cons f rest ih =>
    have hrest := ih (before ++ [f]) (by simp [heq])
    rw [presentLen_concat, List.length_append, List.length_singleton] at hrest
    rw [List.zipIdx_cons, List.filter_cons]
    split
    · rename_i hp
      rw [if_pos hp] at hrest
      refine .cons ?_ hrest
      have hoff := flagFieldsOffset_eq hsum (i := before.length) hp
      rw [heq, List.take_left, ← heq] at hoff
      have hle : presentLen flags before ≤ (fields.map FlagField.size).sum := by
        rw [heq]
        exact ((List.filter_sublist.trans (List.sublist_append_left before _)).map _).sum_le_sum (by simp)
      simp only [hoff, usize]
      omega
    · rename_i hp
      simpa [hp] using hrest

end

theorem not_fieldsTile (hlen : ¬ fields.length < 2 ^ 31) : ¬ FieldsTile flags fields := by
  intro h
  have hrun := congrArg (fun m => m.run ⟨.zero, ⟨[], [], [], ()⟩, []⟩)
    (h.handed Unit fieldHandlers [] ⟨fun _ => flags, fun _ => 0, fields⟩ ⟨fun _ => 0, 0⟩ 0 rfl rfl)
  simp only [countedFlagFields, xdp2ParseFlagFields, parseFlagFieldsFrom_eq, visitFields_handlerGraph,
    if_neg hlen, run_bind, run_throw] at hrun
  cases hrun

end Xdp2
