import Xdp2.Parser.Encap
import Xdp2.Parser.Fast

/-!
# Metadata frames

In both loops a callback gets frame `min k max_frames` behind `k` encapsulations (`parse_frames`,
`fast_frames`). There is no frame `max_frames`, so it may get memory past the array.
`framesInRange_iff`: every callback of every graph stays inside the array exactly when `max_encaps`
is below `max_frames` and below 255, where the counter wraps, or frames have no size.
-/

namespace Xdp2

open StateError

variable {α : Type}

/-- The frame pointer after `k` encapsulations, as an offset into the metadata buffer. -/
def frameAt (cfg : Config) (k : Nat) : Nat :=
  cfg.metameta_size + min k cfg.max_frames.toNat * cfg.frame_size

/-- A callback gets the frame of the encapsulations passed before it. -/
def FrameOf (cfg : Config) (pre : List Event) (k : Call) : Prop :=
  k.frame = frameAt cfg (passedEncaps pre).length

/-- The loop invariant: frame pointer and number are those of the encapsulations passed. -/
structure FrameInv (cfg : Config) (c : Cursor) (s : St α) : Prop where
  calls : EachCall (FrameOf cfg) s.log
  frame : c.frame = frameAt cfg (passedEncaps s.log).length
  num : c.frame_num = min (passedEncaps s.log).length cfg.max_frames.toNat

theorem FrameOf.append_call (l : List Event) (k' k : Call) (h : FrameOf cfg l k) :
    FrameOf cfg (l ++ [.call k']) k := by
  simpa [FrameOf] using h

theorem nextFrame_eq (cfg : Config) (k : Nat) :
    nextFrame cfg (frameAt cfg k) (min k cfg.max_frames.toNat) =
      (frameAt cfg (k + 1), min (k + 1) cfg.max_frames.toNat) := by
  unfold nextFrame frameAt
  by_cases hk : k < cfg.max_frames.toNat
  · have h1 : min k cfg.max_frames.toNat = k := by omega
    have h2 : min (k + 1) cfg.max_frames.toNat = k + 1 := by omega
    rw [h1, h2, if_pos hk, Nat.succ_mul, Nat.add_assoc]
  · have h1 : min k cfg.max_frames.toNat = cfg.max_frames.toNat := by omega
    have h2 : min (k + 1) cfg.max_frames.toNat = cfg.max_frames.toNat := by omega
    rw [h1, h2, if_neg (Nat.lt_irrefl _)]

section
variable {L : Loop α} {p : Parser α} {c : Cursor} {s s1 s2 : St α} {id : NodeId} {pd : ProtoDef}
  {hlen : Nat} {fr : Nat × Nat}

@[simp] theorem passedEncaps_advance_log (s : St α) (pd : ProtoDef) (hlen : Nat) :
    passedEncaps (s.advance pd hlen).log = passedEncaps s.log := by
  rw [St.advance]
  split
  · rfl
  · simp

theorem Processed.passedEncaps (h : Processed L p c s id pd hlen s1) :
    passedEncaps s1.log = passedEncaps s.log := h.filterMap (fun _ => rfl) fun _ => rfl

theorem FrameInv.processed (hI : FrameInv p.config c s) (h : Processed L p c s id pd hlen s1) :
    EachCall (FrameOf p.config) s1.log := by
  refine (L.eachCall hI.calls id).moves FrameOf.append_call h.moves ?_
  intro k hk
  have hpassed : Xdp2.passedEncaps (L.arrive s id).log = Xdp2.passedEncaps s.log := by
    rcases L.arrive_log s id with hl | hl <;> simp [hl]
  rw [FrameOf, hpassed, ← hI.frame]
  exact hk.frame_eq

theorem FrameInv.entered (hI : FrameInv p.config c s) (h : Processed L p c s id pd hlen s1)
    (hent : Entered p.config c id pd s1 s2 fr) :
    fr = (frameAt p.config (Xdp2.passedEncaps s2.log).length,
      min (Xdp2.passedEncaps s2.log).length p.config.max_frames.toNat) := by
  cases hent with
  | plain _ => rw [h.passedEncaps, ← hI.frame, ← hI.num]
  | encap _ hle =>
    rw [St.countEncap_within hle, passedEncaps_append, h.passedEncaps, passedEncaps_within, passedEncaps_nil,
      List.length_append, List.length_singleton, ← nextFrame_eq, ← hI.frame, ← hI.num]

/-- Every iteration keeps the invariant; where the walk stops, the frame is still that of the
encapsulations passed. -/
theorem FrameInv.outcome (hI : FrameInv p.config c s) (hout : VisitOutcome L p c s r) :
    VisitSat (fun _ frame s => frame = frameAt p.config (Xdp2.passedEncaps s.log).length ∧
        EachCall (FrameOf p.config) s.log)
      (FrameInv p.config) (fun s => EachCall (FrameOf p.config) s.log) r := by
  cases hout with
  | null => exact hI.calls
  | @short id pd ret hid hpd hlen =>
    refine ⟨?_, L.eachCall hI.calls _⟩
    rcases L.arrive_log s id with hl | hl <;> simp [hl, hI.frame]
  | crash h => exact hI.processed h
  | stop h => exact ⟨by rw [h.passedEncaps]; exact hI.frame, hI.processed h⟩
  | @handler _ _ _ s1 s' k h hc hret hlog henc hcode =>
    have hframe := h.passedEncaps
    refine ⟨by rw [hlog, passedEncaps_append, hframe]; simpa using hI.frame, ?_⟩
    rw [hlog]
    refine (hI.processed h).snoc fun k hk => ?_
    cases hk
    rw [FrameOf, hframe, ← hI.frame]
    exact hc.frame_eq
  | @tooDeep id pd hlen s1 h henc hgt =>
    refine ⟨?_, (hI.processed h).countEncap _ _⟩
    rw [St.countEncap_beyond hgt, passedEncaps_append, h.passedEncaps]
    simpa using hI.frame
  | noKey h hent => exact hent.eachCall (hI.processed h)
  | unknown h hent =>
    exact ⟨congrArg Prod.fst (hI.entered h hent), hent.eachCall (hI.processed h)⟩
  | zeroLen h hent =>
    refine ⟨?_, (hent.eachCall (hI.processed h)).advance _ _⟩
    rw [passedEncaps_advance_log]
    exact congrArg Prod.fst (hI.entered h hent)
  | next h hent =>
    have hfr := hI.entered h hent
    refine ⟨(hent.eachCall (hI.processed h)).advance _ _, ?_, ?_⟩
    · rw [passedEncaps_advance_log]
      exact congrArg Prod.fst hfr
    · rw [passedEncaps_advance_log]
      exact congrArg Prod.snd hfr

end

theorem FrameInv.init (p : Parser α) (pkt : Packet) (var : CtrlVar) (mem : UserMem α) :
    FrameInv p.config (.init p pkt) (.start var mem) :=
  ⟨.nil, by simp [Cursor.init, frameAt, St.start], by simp [Cursor.init, St.start]⟩

theorem parse_frames (p : Parser α) (fuel : Nat) (pkt : Packet) (var : CtrlVar)
    (mem : UserMem α) :
    EachCall (FrameOf p.config) (final ((xdp2Parse p fuel pkt).run (.start var mem))).log := by
  refine parse_eachCall (I := FrameInv p.config)
    (Q := fun _ frame s => frame = frameAt p.config (passedEncaps s.log).length)
    FrameOf.append_call (.init p pkt var mem) (fun c s hI => hI.calls)
    (fun c s hI => hI.outcome (visit_outcome p fuel c s)) ?_
  · rintro ret frame s k rfl hk
    exact hk.frame_eq

theorem fast_frames (p : Parser α) (fuel steps : Nat) (pkt : Packet) (var : CtrlVar)
    (mem : UserMem α) :
    EachCall (FrameOf p.config)
      (final ((xdp2ParseFast p fuel steps pkt).run (.start var mem))).log := by
  refine fastWalk_rule (I := FrameInv p.config) (F := fun s => EachCall (FrameOf p.config) s.log)
    (fun c s hI => hI.calls) (fun c s hI => ?_) steps _ _ (.init p pkt var mem)
  have h := hI.outcome (fastVisit_outcome p fuel c s)
  generalize (fastVisit p fuel c).run s = r at h ⊢
  match r, h with
  | .ok (.stop _ _) s', h => exact h.2
  | .ok (.next c') s', h => exact h
  | .error _ s', h => exact h

/-! ## How many frames a configuration can use up -/

/-- Every callback in a log gets one of the `max_frames` frames behind the metametadata. -/
def FramesInRange (cfg : Config) (log : List Event) : Prop :=
  ∀ k ∈ calls log, ∃ j < cfg.max_frames.toNat, k.frame = cfg.metameta_size + j * cfg.frame_size

/-- A configuration keeps every callback of both loops inside an array of `max_frames` frames, for
every graph, on every packet. -/
def FramesKept (cfg : Config) : Prop :=
  ∀ (α : Type) (g : Graph α) (root : NodeId) (fuel steps : Nat) (pkt : Packet)
    (mem : UserMem α),
    FramesInRange cfg (final ((xdp2Parse ⟨cfg, root, g⟩ fuel pkt).run (.init mem))).log ∧
    FramesInRange cfg (final ((xdp2ParseFast ⟨cfg, root, g⟩ fuel steps pkt).run (.init mem))).log

theorem FramesInRange.of_passed (h : EachCall (FrameOf cfg) log)
    (hlt : (passedEncaps log).length < cfg.max_frames.toNat) : FramesInRange cfg log := by
  intro k hk
  obtain ⟨pre, post, rfl, hframe⟩ := h.mem (mem_calls.1 hk)
  have hle : (passedEncaps pre).length ≤ (passedEncaps (pre ++ .call k :: post)).length := by
    rw [passedEncaps_append, List.length_append]
    omega
  refine ⟨(passedEncaps pre).length, by omega, ?_⟩
  rw [hframe, frameAt, Nat.min_eq_left (by omega)]

theorem FramesInRange.of_size (h : EachCall (FrameOf cfg) log) (hmax : 1 ≤ cfg.max_frames.toNat)
    (hsize : cfg.frame_size = 0) : FramesInRange cfg log := by
  intro k hk
  obtain ⟨pre, post, -, hframe⟩ := h.mem (mem_calls.1 hk)
  exact ⟨0, hmax, by rw [hframe, frameAt, hsize, Nat.mul_zero, Nat.mul_zero]⟩

theorem passedEncaps_length_le (log : List Event) :
    (passedEncaps log).length ≤ (encapsulations log).length := by
  induction log with
  | nil => exact Nat.le_refl 0
  | cons e log ih =>
    cases e with
    | node | call | advance => simpa using ih
    | encap n b => cases b <;> simp <;> omega

theorem EncapInv.passed (h : EncapInv cfg s) :
    (passedEncaps s.log).length ≤ cfg.max_encaps.toNat :=
  Nat.le_trans (passedEncaps_length_le _) h.le

theorem EncapEnd.passed (h : EncapEnd cfg ret s) :
    (passedEncaps s.log).length ≤ cfg.max_encaps.toNat := by
  rcases h.depth with hle | ⟨-, pre, id, hlog, hpre⟩
  · exact Nat.le_trans (passedEncaps_length_le _) hle
  · rw [hlog, passedEncaps_append, passedEncaps_beyond, passedEncaps_nil, List.append_nil]
    exact Nat.le_trans (passedEncaps_length_le _) (Nat.le_of_eq hpre)

theorem parse_passed_le (p : Parser α) (hlim : p.config.max_encaps.toNat < 255) (fuel : Nat)
    (pkt : Packet) (mem : UserMem α) :
    (passedEncaps (final ((xdp2Parse p fuel pkt).run (.init mem))).log).length ≤
      p.config.max_encaps.toNat := by
  have hinit : EncapInv p.config (.init mem : St α) := ⟨.nil, rfl, Nat.zero_le _⟩
  have hw := walk_rule (I := fun _ s => EncapInv p.config s) (fun c s hI =>
    hI.outcome hlim (visit_outcome p fuel c s)) p.config.max_nodes.toNat (.init p pkt)
    (.init mem) hinit
  refine parse_rule (R := fun r => (passedEncaps (final r).log).length ≤ p.config.max_encaps.toNat)
    hw (fun _ _ hI => hI.passed) (fun _ ⟨_, hI⟩ => hI.passed) fun ret frame s1 s' hend hex => ?_
  have hsame : passedEncaps s'.log = passedEncaps s1.log := hex.filterMap fun _ => rfl
  rw [final_ok, hsame]
  exact hend.passed

theorem fast_passed_le (p : Parser α) (hlim : p.config.max_encaps.toNat < 255) (fuel steps : Nat)
    (pkt : Packet) (mem : UserMem α) :
    (passedEncaps (final ((xdp2ParseFast p fuel steps pkt).run (.init mem))).log).length ≤
      p.config.max_encaps.toNat := by
  have hinit : EncapInv p.config (.init mem : St α) := ⟨.nil, rfl, Nat.zero_le _⟩
  refine fastWalk_rule (I := fun _ s => EncapInv p.config s)
    (F := fun s => (passedEncaps s.log).length ≤ p.config.max_encaps.toNat)
    (fun c s hI => hI.passed) (fun c s hI => ?_) steps _ _ hinit
  have h := hI.outcome hlim (fastVisit_outcome p fuel c s)
  generalize (fastVisit p fuel c).run s = r at h ⊢
  match r, h with
  | .ok (.stop _ _) s', h => exact EncapEnd.passed h
  | .ok (.next c') s', h => exact h
  | .error _ s', h => exact EncapInv.passed h

/-! ## A parser that uses up the frames -/

/-- An iteration of the fast loop on the node that encapsulates itself: its callback is made, the
encapsulation is counted, and within the limit the node comes again with the next frame. -/
theorem encapLoop_fastVisit (cfg : Config) (fuel : Nat) (s : St Unit) (hc : c.parse_node = some 0) :
    (fastVisit (encapLoop cfg) fuel c).run s =
      if cfg.max_encaps.toNat < (s.var.encaps + 1).toNat then
        .ok (.stop Code.stopEncapDepth c.frame) ((s.push (.call (encapCall c))).countEncap cfg 0)
      else
        .ok (.next (c.advance encapProto 0 (some 0) (nextFrame cfg c.frame c.frame_num)))
          ((s.push (.call (encapCall c))).countEncap cfg 0) := by
  have hproc : (fastVisit (encapLoop cfg) fuel c).run s =
      (fastProceed (encapLoop cfg) 0 encapNode encapProto 0 c).run (s.push (.call (encapCall c))) := by
    rw [fastVisit, hc]
    rfl
  have hcount : (tooManyEncaps cfg 0).run (s.push (.call (encapCall c))) =
      .ok (decide (cfg.max_encaps.toNat < (s.var.encaps + 1).toNat))
        ((s.push (.call (encapCall c))).countEncap cfg 0) := rfl
  have henc : fastEncap (α := Unit) cfg 0 encapProto c.frame c.frame_num =
      tooManyEncaps cfg 0 >>= fun tooMany =>
        if tooMany then pure none else pure (some (nextFrame cfg c.frame c.frame_num)) := rfl
  rw [hproc, fastProceed, run_bind, show (encapLoop cfg).config = cfg from rfl, henc,
    run_bind_ok hcount]
  by_cases hgt : cfg.max_encaps.toNat < (s.var.encaps + 1).toNat
  · rw [if_pos hgt, decide_eq_true hgt]
    rfl
  · rw [if_neg hgt, decide_eq_false hgt]
    rfl

/-- Round the loop each encapsulation takes a frame: after `j` of them the next callback gets the
frame `j` frames further on. -/
theorem encapLoop_fastWalk (cfg : Config) (fuel : Nat) :
    ∀ (j : Nat) (c : Cursor) (s : St Unit), c.parse_node = some 0 →
      (255 ≤ cfg.max_encaps.toNat ∨ s.var.encaps.toNat + j ≤ cfg.max_encaps.toNat) →
      c.frame_num + j ≤ cfg.max_frames.toNat →
      ∃ k ∈ calls (final ((fastWalk (encapLoop cfg) fuel (j + 1) c).run s)).log,
        k.frame = c.frame + j * cfg.frame_size := by
  intro j
  induction j with
  | zero =>
    intro c s hc _ _
    refine ⟨encapCall c, ?_, by simp [encapCall]⟩
    rw [fastWalk, run_bind, encapLoop_fastVisit cfg fuel s hc]
    by_cases hgt : cfg.max_encaps.toNat < (s.var.encaps + 1).toNat
    · rw [if_pos hgt]
      simp [St.countEncap]
    · rw [if_neg hgt]
      simp [St.countEncap, fastWalk]
  | succ j ih =>
    intro c s hc hlim hframes
    have hbyte := (s.var.encaps + 1).toNat_lt
    have hadd : (s.var.encaps + 1).toNat ≤ s.var.encaps.toNat + 1 := by
      rw [UInt8.toNat_add]
      exact Nat.mod_le _ _
    have hwithin : ¬ cfg.max_encaps.toNat < (s.var.encaps + 1).toNat := by omega
    have hnext : nextFrame cfg c.frame c.frame_num = (c.frame + cfg.frame_size, c.frame_num + 1) :=
      if_pos (by omega)
    obtain ⟨k, hk, hkf⟩ := ih (c.advance encapProto 0 (some 0) (nextFrame cfg c.frame c.frame_num))
      ((s.push (.call (encapCall c))).countEncap cfg 0) rfl
      (by
        refine hlim.imp id fun h => ?_
        change (s.var.encaps + 1).toNat + j ≤ _
        omega)
      (by simp only [Cursor.advance, hnext]; omega)
    refine ⟨k, ?_, ?_⟩
    · rw [fastWalk, run_bind, encapLoop_fastVisit cfg fuel s hc, if_neg hwithin]
      exact hk
    · rw [hkf, Cursor.advance, hnext, Nat.succ_mul]
      dsimp only
      omega

/-- A configuration whose frames have a size and that lets `max_frames` encapsulations pass hands
out the frame behind the last one. -/
theorem encapLoop_not_inRange (cfg : Config) (hsize : cfg.frame_size ≠ 0)
    (hlim : 255 ≤ cfg.max_encaps.toNat ∨ cfg.max_frames.toNat ≤ cfg.max_encaps.toNat) :
    ¬ FramesInRange cfg (final ((xdp2ParseFast (encapLoop cfg) 0 (cfg.max_frames.toNat + 1)
      emptyPacket).run (.init noMem))).log := by
  intro h
  obtain ⟨k, hk, hframe⟩ := encapLoop_fastWalk cfg 0 cfg.max_frames.toNat (.init (encapLoop cfg) emptyPacket) (.init noMem) rfl
    (hlim.imp id fun hle => by
      change 0 + _ ≤ _
      omega)
    (Nat.le_of_eq (Nat.zero_add _))
  obtain ⟨j, hj, hframe'⟩ := h k hk
  have hmul : cfg.max_frames.toNat * cfg.frame_size = j * cfg.frame_size := by
    have hbase : (Cursor.init (encapLoop cfg) emptyPacket).frame = cfg.metameta_size := rfl
    omega
  have := Nat.eq_of_mul_eq_mul_right (Nat.pos_of_ne_zero hsize) hmul
  omega

/-- **When the callbacks stay inside the frame array**: exactly when `max_encaps` is below the
number of frames and below 255, or frames have no size. -/
theorem framesKept_iff (cfg : Config) (hmax : 1 ≤ cfg.max_frames.toNat) :
    FramesKept cfg ↔
      cfg.frame_size = 0 ∨
        (cfg.max_encaps.toNat < cfg.max_frames.toNat ∧ cfg.max_encaps.toNat < 255) := by
  constructor
  · intro h
    by_contra hne
    exact encapLoop_not_inRange cfg (by omega) (by omega)
      (h Unit encapGraph 0 0 (cfg.max_frames.toNat + 1) emptyPacket noMem).2
  · rintro (hsize | ⟨hframes, hbyte⟩) α g root fuel steps pkt mem
    · exact ⟨.of_size (parse_frames ⟨cfg, root, g⟩ fuel pkt _ mem) hmax hsize,
        .of_size (fast_frames ⟨cfg, root, g⟩ fuel steps pkt _ mem) hmax hsize⟩
    · exact ⟨.of_passed (parse_frames ⟨cfg, root, g⟩ fuel pkt _ mem)
          (Nat.lt_of_le_of_lt (parse_passed_le ⟨cfg, root, g⟩ hbyte fuel pkt mem) hframes),
        .of_passed (fast_frames ⟨cfg, root, g⟩ fuel steps pkt _ mem)
          (Nat.lt_of_le_of_lt (fast_passed_le ⟨cfg, root, g⟩ hbyte fuel steps pkt mem) hframes)⟩

/-- Four frames and at most three encapsulations. -/
theorem framesKept_four :
    1 ≤ (4 : UInt16).toNat ∧
      FramesKept { max_nodes := 10, max_encaps := 3, max_frames := 4, frame_size := 16 } :=
  ⟨by decide, (framesKept_iff _ (by decide)).2 (.inr (by decide))⟩

/-- An encapsulation, and in it a leaf with a handler. -/
def tunnelGraph : Graph Unit where
  node
    | 0 => { proto_def := some { encap := true, min_len := 0 }, wildcard_node := some 1 }
    | _ => { proto_def := some { min_len := 0 },
             ops := { handler := some fun _ mem => (Code.okay, mem) } }
  tlv _ := {}
  flagField _ := {}
  arrel _ := {}

/-- One frame, and up to four encapsulations. -/
def tunnelConfig : Config :=
  { max_nodes := 10, max_encaps := 4, max_frames := 1, frame_size := 16 }

/-- With one frame, the handler behind one encapsulation gets the frame after it. -/
theorem tunnel_frame_past_end :
    ¬ FramesInRange tunnelConfig
      (final ((xdp2Parse ⟨tunnelConfig, 0, tunnelGraph⟩ 0 emptyPacket).run (.init noMem))).log := by
  intro h
  have hlog : calls (final ((xdp2Parse ⟨tunnelConfig, 0, tunnelGraph⟩ 0 emptyPacket).run
      (.init noMem))).log = [⟨.node 1, .handler, some 0, 0, 16, Code.okay⟩] := rfl
  rw [FramesInRange, hlog] at h
  obtain ⟨j, hj, hframe⟩ := h _ (List.mem_singleton_self _)
  have hj' : j < 1 := hj
  obtain rfl : j = 0 := by omega
  exact absurd hframe (by decide)

end Xdp2
