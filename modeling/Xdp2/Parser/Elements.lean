import Xdp2.Parser.SubSpec

/-!
# The elements of an array

`ArrayParsed` says what `xdp2_parse_array` should do: parse whole elements of the header one behind
the other, no more than `max_els`, with `XDP2_STOP_LENGTH` exactly when the header is too short for
`num_els` elements. The loop tests the length left for zero only, and does not read `max_els`:
`array_parsed_iff` says for which sizes this does not show, whatever the node and the operations.
-/

namespace Xdp2

open StateError

variable {α : Type}

/-- Element `i` of the array in a header. -/
def ProtoArrayDef.elAt (d : ProtoArrayDef) (hdr : Hdr) (i : Nat) : Hdr :=
  hdr.add (d.start_offset hdr + i * d.el_length)

/-- The node of an element: that of the table, else the wildcard node. -/
def ParseArrayNode.arrelNode (n : ParseArrayNode) (el_type : Int) : Option ArrelId :=
  (n.array_proto_table.bind (lookupArrayNode el_type)).or n.array_wildcard_node

/-- An element stops the parse with a code: its type is negative, or unknown and not skipped. -/
inductive ArrelStop (n : ParseArrayNode) (d : ProtoArrayDef) (cp : Hdr) : Int → Prop where
  | type (htype : d.elType cp < 0) : ArrelStop n d cp (d.elType cp)
  | unknown (htype : ¬ d.elType cp < 0) (hnode : n.arrelNode (d.elType cp) = none)
      (hret : n.unknown_array_type_ret ≠ Code.okay) : ArrelStop n d cp n.unknown_array_type_ret

/-- The first elements of the array are parsed, and none of them stops the parse. -/
inductive Arrels (g : Graph α) (n : ParseArrayNode) (d : ProtoArrayDef) (hdr : Hdr) (frame : Nat)
    (s : St α) : Nat → St α → Prop where
  | zero : Arrels g n d hdr frame s 0 s
  | succ {i : Nat} {s1 s2 : St α} (hprev : Arrels g n d hdr frame s i s1)
      (htype : ¬ d.elType (d.elAt hdr i) < 0)
      (hrun : (parseOneArrel g n (d.elType (d.elAt hdr i)) (d.elAt hdr i) d.el_length frame).run s1 =
        .ok Code.okay s2) :
      Arrels g n d hdr frame s (i + 1) s2

/-- The callback is one of an array element and gets the element at `cp`. -/
structure ArrelCall (cp : Hdr) (el_length frame : Nat) (c : Call) : Prop where
  role : ∃ id, c.role = .arrel id
  hdr_eq : c.hdr = some cp.off
  len_eq : c.hdr_len = el_length
  frame_eq : c.frame = frame

/-- An array of `num_els` elements in a header of length `hlen` is parsed as it should be: `k`
elements are. -/
structure ArrayParsed (g : Graph α) (n : ParseArrayNode) (d : ProtoArrayDef) (hdr : Hdr)
    (hlen frame num_els : Nat) (s : St α) (k : Nat) (ret : Int) (s' : St α) : Prop where
  elements : Arrels g n d hdr frame s k s'
  /-- The elements lie inside the header. -/
  inside : d.start_offset hdr + k * d.el_length ≤ hlen
  max_els : k ≤ n.max_els.toNat
  /-- The callbacks come element by element, and each is handed its element. -/
  calls : ∃ ess : List (List Event), s'.log = s.log ++ ess.flatten ∧ ess.length = k ∧
    ∀ i es, ess[i]? = some es →
      ∀ ev ∈ es, ∃ c, ev = .call c ∧ ArrelCall (d.elAt hdr i) d.el_length frame c
  /-- Without a whole element that stops the parse, the code says whether the elements fit. -/
  stop_length : (∀ i < num_els, d.start_offset hdr + (i + 1) * d.el_length ≤ hlen →
      ∀ code, ¬ ArrelStop n d (d.elAt hdr i) code) →
    (ret = Code.stopLength ↔ hlen < d.start_offset hdr + num_els * d.el_length)

/-- The sizes for which the loop's tests are enough: `num_els` elements of `el_length` bytes fit into
`left` bytes, or the bytes are a number of whole elements. -/
def ArraySizes (num_els el_length left max_els : Nat) : Prop :=
  num_els * el_length ≤ left ∧ (left = 0 → num_els = 0) ∧ num_els ≤ max_els ∨
    left < num_els * el_length ∧ el_length ∣ left ∧ left / el_length ≤ max_els

instance (num_els el_length left max_els : Nat) :
    Decidable (ArraySizes num_els el_length left max_els) := by
  unfold ArraySizes
  infer_instance

/-! ## Elements -/

theorem parseOneArrel_run (g : Graph α) (n : ParseArrayNode) (el_type : Int) (cp : Hdr)
    (el_length frame : Nat) (s : St α) :
    ∃ ret s', (parseOneArrel g n el_type cp el_length frame).run s = .ok ret s' ∧
      Moves (ArrelCall cp el_length frame) s s' ∧
      (ret ≠ Code.okay → s' = s ∧ ret = n.unknown_array_type_ret ∧ n.arrelNode el_type = none) := by
  have hmoves : CallRun (ArrelCall cp el_length frame)
      (parseOneArrel g n el_type cp el_length frame) := by
    rw [parseOneArrel]
    split
    · exact CallRun.bind (callExtract_moves ⟨⟨_, rfl⟩, rfl, rfl, rfl⟩) fun _ =>
        CallRun.bind (callHandlerVoid_moves fun ret => ⟨⟨_, rfl⟩, rfl, rfl, rfl⟩) fun _ => .pure _
    · exact .pure _
  have hrun : ∃ ret s', (parseOneArrel g n el_type cp el_length frame).run s = .ok ret s' ∧
      (ret ≠ Code.okay → s' = s ∧ ret = n.unknown_array_type_ret ∧ n.arrelNode el_type = none) := by
    rw [parseOneArrel, ParseArrayNode.arrelNode]
    split
    · rename_i id _
      obtain ⟨s1, hs1⟩ := callExtract_ok (.arrel id) (g.arrel id) (some cp) el_length frame s
      obtain ⟨s2, hs2⟩ := callHandlerVoid_ok (.arrel id) .handler (g.arrel id).handler (some cp)
        el_length frame s1
      rw [run_bind_ok hs1, run_bind_ok hs2]
      exact ⟨_, s2, rfl, fun h => absurd rfl h⟩
    · rename_i hnode
      exact ⟨_, s, rfl, fun _ => ⟨rfl, rfl, hnode⟩⟩
  obtain ⟨ret, s', hrun, hstop⟩ := hrun
  have hcalls := hmoves s
  rw [hrun] at hcalls
  exact ⟨ret, s', hrun, hcalls, hstop⟩

theorem Arrels.log (h : Arrels g n d hdr frame s k s') :
    ∃ ess : List (List Event), s'.log = s.log ++ ess.flatten ∧ ess.length = k ∧
      ∀ i es, ess[i]? = some es →
        ∀ ev ∈ es, ∃ c, ev = .call c ∧ ArrelCall (d.elAt hdr i) d.el_length frame c := by
  induction h with
  | zero => exact ⟨[], (List.append_nil _).symm, rfl, fun i es h => by cases h⟩
  | @succ k s1 s2 _ _ hrun ih =>
    obtain ⟨ess, hlog, hlen, hess⟩ := ih
    obtain ⟨ret, s', hrun', hmoves, -⟩ := parseOneArrel_run g n (d.elType (d.elAt hdr k))
      (d.elAt hdr k) d.el_length frame s1
    rw [hrun'] at hrun
    cases hrun
    obtain ⟨es, hes, hcalls⟩ := hmoves.log
    refine ⟨ess ++ [es], ?_, by rw [List.length_append, hlen, List.length_singleton], ?_⟩
    · rw [hes, hlog, List.flatten_append, List.flatten_singleton, List.append_assoc]
    · intro i es' hi
      rcases Nat.lt_or_ge i ess.length with hlt | hge
      · rw [List.getElem?_append_left hlt] at hi
        exact hess i es' hi
      · rw [List.getElem?_append_right hge] at hi
        obtain ⟨hzero, rfl⟩ := List.getElem?_eq_some_iff.mp hi
        rw [List.length_singleton] at hzero
        have hik : i = k := by omega
        subst hik
        simpa only [List.getElem_singleton] using hcalls

/-! ## The loop -/

/-- How the loop ends behind `k` elements. -/
inductive ArrayEnd (n : ParseArrayNode) (d : ProtoArrayDef) (hdr : Hdr) (num_els left k : Nat) :
    Int → Prop where
  | all (hk : k = num_els) : ArrayEnd n d hdr num_els left k Code.okay
  | length (hk : k < num_els) (hleft : k * d.el_length = left) :
      ArrayEnd n d hdr num_els left k Code.stopLength
  | stop {ret : Int} (hk : k < num_els) (hleft : (k + 1) * d.el_length ≤ left)
      (hstop : ArrelStop n d (d.elAt hdr k) ret) : ArrayEnd n d hdr num_els left k ret

theorem ProtoArrayDef.elAt_succ (d : ProtoArrayDef) (hdr : Hdr) (i : Nat) :
    (d.elAt hdr i).add d.el_length = d.elAt hdr (i + 1) := by
  rw [ProtoArrayDef.elAt, Hdr.add_add, ProtoArrayDef.elAt, Nat.succ_mul, Nat.add_assoc]

theorem parseArrayFrom_ends (g : Graph α) (n : ParseArrayNode) (d : ProtoArrayDef) (hdr : Hdr)
    (frame : Nat) (s : St α) (hleft : left < 2 ^ 64)
    (hfits : ∀ i < num_els, i * d.el_length < left → (i + 1) * d.el_length ≤ left) :
    ∀ {rest i : Nat} {s1 : St α}, i + rest = num_els → Arrels g n d hdr frame s i s1 →
      i * d.el_length ≤ left →
      ∃ k ret s', (parseArrayFrom g n d frame rest (d.elAt hdr i) (left - i * d.el_length)).run s1 =
          .ok ret s' ∧
        Arrels g n d hdr frame s k s' ∧ k ≤ num_els ∧ k * d.el_length ≤ left ∧
        ArrayEnd n d hdr num_els left k ret := by
  intro rest
  induction rest with
  | zero =>
    intro i s1 hi hels hle
    exact ⟨i, _, s1, rfl, hels, hi.le, hle, .all hi⟩
  | succ rest ih =>
    intro i s1 hi hels hle
    rw [parseArrayFrom]
    rcases hle.eq_or_lt with heq | hlt
    · rw [if_pos (by omega)]
      exact ⟨i, _, s1, rfl, hels, by omega, hle, .length (by omega) heq⟩
    · have hnext := hfits i (by omega) hlt
      rw [if_neg (by omega)]
      by_cases htype : d.elType (d.elAt hdr i) < 0
      · rw [if_pos htype]
        exact ⟨i, _, s1, rfl, hels, by omega, hle, .stop (by omega) hnext (.type htype)⟩
      · obtain ⟨ret, s2, hrun, -, hstop⟩ := parseOneArrel_run g n (d.elType (d.elAt hdr i))
          (d.elAt hdr i) d.el_length frame s1
        rw [if_neg htype, run_bind_ok hrun]
        by_cases hret : ret = Code.okay
        · subst hret
          rw [if_neg (not_not.mpr rfl), d.elAt_succ, subSize_eq (by rw [Nat.succ_mul] at hnext; omega)
            (by omega), Nat.sub_sub, ← Nat.succ_mul]
          exact ih (by omega) (.succ hels htype hrun) hnext
        · obtain ⟨rfl, rfl, hnode⟩ := hstop hret
          rw [if_pos hret]
          exact ⟨i, _, s2, rfl, hels, by omega, hle, .stop (by omega) hnext (.unknown htype hnode hret)⟩

theorem parseArrayFrom_log (rest : Nat) (cp : Hdr) (left : Nat) (s : St α) :
    s.log.length ≤ (final ((parseArrayFrom g n d frame rest cp left).run s)).log.length := by
  have houtcome : CodeOutcome (QuietCall frame) (TlvCall frame) s
      ((parseArrayFrom g n d frame rest cp left).run s) := parseArrayFrom_run g n d rest cp left s
  generalize (parseArrayFrom g n d frame rest cp left).run s = r at houtcome
  cases houtcome with
  | quiet h =>
    obtain ⟨es, hlog, -⟩ := h.log
    rw [hlog, List.length_append]
    exact Nat.le_add_right _ _
  | stopped h _ _ hlog' =>
    obtain ⟨es, hlog, -⟩ := h.log
    rw [final_ok, hlog', hlog, List.length_append, List.length_append, Nat.add_assoc]
    exact Nat.le_add_right _ _

/-! ## Sizes -/

namespace ArraySizes

theorem fits (h : ArraySizes num_els el_length left max_els) (hk : k < num_els)
    (hlt : k * el_length < left) : (k + 1) * el_length ≤ left := by
  rcases h with ⟨hle, -, -⟩ | ⟨-, ⟨q, rfl⟩, -⟩
  · exact (Nat.mul_le_mul_right el_length hk).trans hle
  · rw [Nat.mul_comm el_length q] at hlt ⊢
    exact Nat.mul_le_mul_right el_length (Nat.lt_of_mul_lt_mul_right hlt)

theorem le_max (h : ArraySizes num_els el_length left max_els) (hk : k ≤ num_els)
    (hle : k * el_length ≤ left) : k ≤ max_els := by
  rcases h with ⟨-, -, hmax⟩ | ⟨hlt, -, hmax⟩
  · exact hk.trans hmax
  · have hpos : 0 < el_length := Nat.pos_of_ne_zero fun hzero => by simp [hzero] at hlt
    exact ((Nat.le_div_iff_mul_le hpos).mpr hle).trans hmax

theorem short (h : ArraySizes num_els el_length left max_els) (hk : k < num_els)
    (heq : k * el_length = left) : left < num_els * el_length := by
  rcases h with ⟨hle, hzero, -⟩ | ⟨hlt, -, -⟩
  · have hpos : 0 < el_length := Nat.pos_of_ne_zero fun hel => by
      have := hzero (by rw [← heq, hel, Nat.mul_zero])
      omega
    rw [← heq]
    exact Nat.mul_lt_mul_of_pos_right hk hpos
  · exact hlt

theorem parsed (hlen64 : hlen < 2 ^ 64) (hstart : d.start_offset hdr ≤ hlen)
    (hnum : (d.num_els hdr (hlen - d.start_offset hdr)).toNat = num_els)
    (h : ArraySizes num_els d.el_length (hlen - d.start_offset hdr) n.max_els.toNat) (s : St α) :
    ∃ k ret s', (xdp2ParseArray g n d hdr hlen frame).run s = .ok ret s' ∧
      ArrayParsed g n d hdr hlen frame num_els s k ret s' := by
  have hfirst : hdr.add (d.start_offset hdr) = d.elAt hdr 0 := by
    rw [ProtoArrayDef.elAt, Nat.zero_mul, Nat.add_zero]
  obtain ⟨k, ret, s', hrun, hels, hk, hle, hend⟩ := parseArrayFrom_ends g n d hdr frame s (by omega)
    (fun i hi hlt => h.fits hi hlt) (Nat.zero_add num_els) .zero (by omega)
  refine ⟨k, ret, s', ?_, hels, by omega, h.le_max hk hle, hels.log, fun hgo => ?_⟩
  · rw [xdp2ParseArray, subSize_eq hstart hlen64, hnum, hfirst]
    rwa [Nat.zero_mul, Nat.sub_zero] at hrun
  · cases hend with
    | all hk =>
      subst hk
      exact iff_of_false (by decide) (by omega)
    | length hk heq => exact iff_of_true rfl (by have := h.short hk heq; omega)
    | stop hk hfits hstop => exact absurd hstop (hgo k hk (by omega) ret)

end ArraySizes

/-! ## Other sizes -/

/-- Every element has a handler, which lets the parse go on. -/
def handledArrels (α : Type) : Graph α where
  node _ := { proto_def := none }
  tlv _ := {}
  flagField _ := {}
  arrel _ := { handler := some fun _ mem => (Code.okay, mem) }

/-- A node that takes elements of any type. -/
def anyArrel (max_els : UInt32) : ParseArrayNode where
  max_els := max_els
  array_wildcard_node := some 0

/-- Elements without a type. -/
def untypedArray (start el_length : Nat) (num_els : UInt32) : ProtoArrayDef where
  num_els _ _ := num_els
  start_offset _ := start
  el_length := el_length

section
variable (max_els num_els : UInt32) (start el_length frame : Nat)

theorem parseOneArrel_handled (cp : Hdr) (s : St α) :
    let d := untypedArray start el_length num_els
    ∃ s', (parseOneArrel (handledArrels α) (anyArrel max_els) (d.elType cp) cp d.el_length frame).run s =
      .ok Code.okay s' ∧ s'.log.length = s.log.length + 1 :=
  ⟨_, rfl, List.length_append⟩

variable {max_els num_els start el_length frame}

theorem Arrels.log_length
    (h : Arrels (handledArrels α) (anyArrel max_els) (untypedArray start el_length num_els) hdr frame s
      k s') :
    s'.log.length = s.log.length + k := by
  induction h with
  | zero => rfl
  | @succ i s1 s2 _ _ hrun ih =>
    obtain ⟨s', hrun', hlog⟩ := parseOneArrel_handled max_els num_els start el_length frame
      ((untypedArray start el_length num_els).elAt hdr i) s1
    rw [hrun'] at hrun
    cases hrun
    rw [hlog, ih, Nat.add_assoc]

theorem parseArrayFrom_visits (max_els num_els : UInt32) (start frame : Nat) (cp : Hdr) (s : St α)
    (hj : j ≤ rest) (hleft : left < 2 ^ 64) (hbegun : ∀ i < j, i * el_length < left) :
    s.log.length + j ≤ (final ((parseArrayFrom (handledArrels α) (anyArrel max_els)
      (untypedArray start el_length num_els) frame rest cp left).run s)).log.length := by
  induction j generalizing rest left cp s with
  | zero => exact parseArrayFrom_log rest cp left s
  | succ j ih =>
    obtain ⟨rest, rfl⟩ : ∃ rest', rest = rest' + 1 := ⟨rest - 1, by omega⟩
    have hpos := hbegun 0 (Nat.succ_pos j)
    have htype : ¬ (untypedArray start el_length num_els).elType cp < 0 := lt_irrefl (0 : Int)
    obtain ⟨s1, hrun, hlog⟩ :=
      parseOneArrel_handled max_els num_els start el_length frame cp s
    rw [parseArrayFrom, if_neg (by omega), if_neg htype, run_bind_ok hrun, if_neg (not_not.mpr rfl),
      Nat.add_comm j, ← Nat.add_assoc, ← hlog]
    cases j with
    | zero => exact parseArrayFrom_log rest _ _ s1
    | succ j =>
      -- the element after this one begins in time, so this one has left bytes
      have hone := hbegun 1 (by omega)
      have hsub : subSize left (untypedArray start el_length num_els).el_length = left - el_length :=
        subSize_eq (show el_length ≤ left by omega) hleft
      rw [hsub]
      refine ih _ _ (by omega) (by omega) fun i hi => ?_
      have := hbegun (i + 1) (by omega)
      rw [Nat.succ_mul] at this
      omega

end

theorem not_arrelStop :
    ¬ ArrelStop (anyArrel max_els) (untypedArray start el_length num_els) cp code := by
  intro h
  cases h with
  | type htype => exact lt_irrefl (0 : Int) htype
  | unknown _ hnode _ => cases hnode

/-- The sizes, from what such a parse does: every element that is begun is among the `k` that fit, and
the code is not `XDP2_STOP_LENGTH` if the elements fit into no bytes. -/
theorem ArraySizes.of_begun (hk : k * el_length ≤ left) (hmax : k ≤ max_els)
    (hbegun : ∀ {j : Nat}, j ≤ num_els → (∀ i < j, i * el_length < left) → j ≤ k)
    (hempty : left = 0 → num_els ≠ 0 → left < num_els * el_length) :
    ArraySizes num_els el_length left max_els := by
  rcases Nat.lt_or_ge left (num_els * el_length) with hlt | hfit
  · have hpos : 0 < el_length := Nat.pos_of_ne_zero fun hel => by simp [hel] at hlt
    have hquot : left / el_length < num_els := (Nat.div_lt_iff_lt_mul hpos).mpr hlt
    have hle : left / el_length * el_length ≤ left := Nat.div_mul_le_self left el_length
    refine .inr ⟨hlt, ?_, ?_⟩
    · -- otherwise the last element is begun and does not fit
      by_contra hdvd
      have hne : left / el_length * el_length ≠ left := fun heq =>
        hdvd (Dvd.intro_left _ heq)
      have hlast : left / el_length + 1 ≤ k := hbegun hquot fun i hi =>
        (Nat.mul_le_mul_right el_length (Nat.le_of_lt_succ hi)).trans_lt (lt_of_le_of_ne hle hne)
      have hpast : left < (left / el_length + 1) * el_length := by
        rw [Nat.mul_comm]
        exact Nat.lt_mul_div_succ left hpos
      exact absurd ((Nat.mul_le_mul_right el_length hlast).trans hk) (Nat.not_le_of_lt hpast)
    · exact (hbegun hquot.le fun i hi =>
        (Nat.mul_lt_mul_of_pos_right hi hpos).trans_le hle).trans hmax
  · have hzero : left = 0 → num_els = 0 := fun hleft => by
      by_contra hne
      exact absurd (hempty hleft hne) (Nat.not_lt_of_le hfit)
    refine .inl ⟨hfit, hzero, (hbegun le_rfl fun i hi => ?_).trans hmax⟩
    have hleft : 0 < left := Nat.pos_of_ne_zero fun h => by
      have := hzero h
      omega
    rcases Nat.eq_zero_or_pos el_length with hel | hel
    · rw [hel, Nat.mul_zero]
      exact hleft
    · exact (Nat.mul_lt_mul_of_pos_right hi hel).trans_le hfit

/-- **For which sizes an array is parsed as it should be, whatever the node, its table and its
callbacks.** -/
theorem array_parsed_iff [Inhabited α] (hdr : Hdr) (hlen start el_length : Nat)
    (num_els max_els : UInt32) (hlen64 : hlen < 2 ^ 64) (hstart : start ≤ hlen) :
    (∀ (g : Graph α) (n : ParseArrayNode) (d : ProtoArrayDef) (frame : Nat) (s : St α),
      n.max_els = max_els → d.start_offset hdr = start → d.el_length = el_length →
      d.num_els hdr (hlen - start) = num_els →
      ∃ k ret s', (xdp2ParseArray g n d hdr hlen frame).run s = .ok ret s' ∧
        ArrayParsed g n d hdr hlen frame num_els.toNat s k ret s') ↔
    ArraySizes num_els.toNat el_length (hlen - start) max_els.toNat := by
  constructor
  · intro hall
    let d := untypedArray start el_length num_els
    let s : St α := .init ⟨[], [], [], default⟩
    obtain ⟨k, ret, s', hrun, hparsed⟩ :=
      hall (handledArrels α) (anyArrel max_els) d 0 s rfl rfl rfl rfl
    have hloop : (parseArrayFrom (handledArrels α) (anyArrel max_els) d 0 num_els.toNat
        (hdr.add start) (hlen - start)).run s = .ok ret s' := by
      rw [← show subSize hlen start = hlen - start from subSize_eq hstart hlen64]
      exact hrun
    have hinside : start + k * el_length ≤ hlen := hparsed.inside
    refine .of_begun (by omega) hparsed.max_els (fun {j} hj hbegun => ?_) fun hleft hne => ?_
    · have hlog := parseArrayFrom_visits max_els num_els start 0 (hdr.add start) s hj (by omega) hbegun
      rw [hloop, final_ok, hparsed.elements.log_length] at hlog
      omega
    · obtain ⟨m, hm⟩ := Nat.exists_eq_succ_of_ne_zero hne
      rw [hleft, hm, parseArrayFrom, if_pos rfl] at hloop
      cases hloop
      have hlt := (hparsed.stop_length fun i _ _ code => not_arrelStop).mp rfl
      have hlt' : hlen < start + num_els.toNat * el_length := hlt
      omega
  · intro hsizes g n d frame s hmax hoff hel hnum
    subst hmax hoff hel hnum
    exact hsizes.parsed hlen64 hstart rfl s

/-- Two addresses of sixteen bytes behind a header of eight, and room for two: a segment list. -/
theorem array_parsed_iff_segments :
    let d := untypedArray 8 16 2
    let hdr : Hdr := ⟨fun _ => 0, 0⟩
    let s : St Unit := .init ⟨[], [], [], ()⟩
    ∃ k ret s', (xdp2ParseArray (handledArrels Unit) (anyArrel 2) d hdr 40 0).run s = .ok ret s' ∧
      ArrayParsed (handledArrels Unit) (anyArrel 2) d hdr 40 0 2 s k ret s' := by
  intro d hdr s
  exact (array_parsed_iff hdr 40 8 16 2 2 (by decide) (by decide)).mpr (by decide)
    (handledArrels Unit) (anyArrel 2) d 0 s rfl rfl rfl rfl

/-- An address of sixteen bytes with eight bytes left is handed to its handler, and the code is
`XDP2_OKAY`. With room for one element, two are visited. -/
theorem array_past_header :
    let hdr : Hdr := ⟨fun _ => 0, 0⟩
    let s : St Unit := .init ⟨[], [], [], ()⟩
    (∃ s', (xdp2ParseArray (handledArrels Unit) (anyArrel 1) (untypedArray 8 16 1) hdr 16 0).run s =
        .ok Code.okay s' ∧
      s'.log = [.call ⟨.arrel 0, .handler, some 8, 16, 0, Code.okay⟩]) ∧
    (final ((xdp2ParseArray (handledArrels Unit) (anyArrel 1) (untypedArray 8 4 2) hdr 16 0).run
        s)).log =
      [.call ⟨.arrel 0, .handler, some 8, 4, 0, Code.okay⟩,
        .call ⟨.arrel 0, .handler, some 12, 4, 0, Code.okay⟩] := by
  intro hdr s
  refine ⟨?_, by decide +kernel⟩
  rw [xdp2ParseArray, show subSize 16 ((untypedArray 8 16 1).start_offset hdr) = 8 by decide]
  exact ⟨_, rfl, rfl⟩

end Xdp2
