import Xdp2.Lib.Chain
import Xdp2.Accelerator.Pipeline

/-!
# The flow of bytes through a pipeline

Input, pipes and output are a chain of queues (`Pipeline.queue`), and each call of a handler is a
move in it. The turns of all stages are a pass, so the main loop uses the input up (`mainLoop_spec`)
and the loop after it empties all pipes but the last (`drainLoop_spec`). That one is read by one
more call, so the output is complete just if this call takes all of it (`pipeline_delivers_iff`).
-/

namespace Xdp2

open Chain

variable {σ : Type}

namespace Pipeline

/-- The queues of a pipeline: its input, its pipes and its output. -/
def queue (P : Pipeline σ) (s : PipelineState σ) (j : Nat) : List UInt8 :=
  if j = 0 then s.input
  else if j < P.num_stages then (s.pipe (j - 1)).contents
  else if j = P.num_stages then s.output
  else []

/-- The capacities of the queues. -/
structure Sized (P : Pipeline σ) (cap : Nat → Nat) (s : PipelineState σ) : Prop where
  pipes : ∀ i, i + 1 < P.num_stages → (s.pipe i).size = cap (i + 1)
  output : s.output.length + s.output_size = cap P.num_stages

section
variable {P : Pipeline σ} {cap : Nat → Nat} {s : PipelineState σ} {i j : Nat}

theorem queue_succ (h : i + 1 < P.num_stages) : P.queue s (i + 1) = (s.pipe i).contents := by
  rw [queue, if_neg (Nat.succ_ne_zero i), if_pos h, Nat.add_sub_cancel]

theorem queue_last : P.queue s P.num_stages = s.output := by
  have := P.two_le
  rw [queue, if_neg (by omega), if_neg (lt_irrefl _), if_pos rfl]

/-! ## Calls of handlers -/

theorem outputToPipe_moves (hs : P.Sized cap s) :
    let r := P.outputToPipe 0 s.input s
    let s' := { r.2 with input := s.input.drop r.1 }
    P.Sized cap s' ∧ Moves cap 0 (P.queue s) (P.queue s') := by
  intro r s'
  have hn := P.two_le
  have hle : r.1 ≤ s.input.length := (P.handler 0).copied_le_in _ _ _
  have hpipe : (s'.pipe 0).contents = (s.pipe 0).contents ++ s.input.take r.1 ∧
      (s'.pipe 0).size = (s.pipe 0).size := by
    simp only [s', r, outputToPipe, Function.update_self]
    exact ⟨Pipe.contents_produce _, Pipe.size_produce _⟩
  have hother : ∀ m, m ≠ 0 → s'.pipe m = s.pipe m := by
    intro m hm
    simp only [s', r, outputToPipe]
    rw [Function.update_of_ne hm]
  refine ⟨⟨fun m hm => ?_, hs.output⟩, r.1, hle, ?_, fun hne hroom => ?_⟩
  · rcases eq_or_ne m 0 with rfl | hne
    · rw [hpipe.2, hs.pipes 0 hm]
    · rw [hother m hne, hs.pipes m hm]
  · refine eq_move rfl ?_ fun j hj hj' => ?_
    · rw [queue_succ (by omega), queue_succ (by omega), hpipe.1]
      rfl
    · rw [queue, queue, if_neg hj, if_neg hj, hother (j - 1) (by omega)]
      rfl
  · refine (P.handler 0).copied_pos _ _ _ hne (Pipe.emptyRight_pos _ ?_)
    rwa [hs.pipes 0 (by omega), ← queue_succ (P := P) (by omega)]

theorem outputStage_moves (hs : P.Sized cap s) (hi : i + 2 < P.num_stages) :
    P.Sized cap (P.outputStage i s).2 ∧
      Moves cap (i + 1) (P.queue s) (P.queue (P.outputStage i s).2) := by
  set r := P.outputStage i s with hr
  have hle : r.1 ≤ (s.pipe i).filledRight :=
    ((P.handler (i + 1)).copied_le_in _ _ _).trans (s.pipe i).length_run.le
  have hin : (r.2.pipe i).contents = (s.pipe i).contents.drop r.1 ∧
      (r.2.pipe i).size = (s.pipe i).size := by
    simp only [hr, outputStage, Function.update_self]
    exact ⟨Pipe.contents_consume _, Pipe.size_consume _⟩
  have hout : (r.2.pipe (i + 1)).contents =
        (s.pipe (i + 1)).contents ++ (s.pipe i).contents.take r.1 ∧
      (r.2.pipe (i + 1)).size = (s.pipe (i + 1)).size := by
    have htake : (s.pipe i).run.take r.1 = (s.pipe i).contents.take r.1 := by
      rw [Pipe.run_eq, List.take_take, min_eq_left hle]
    rw [← htake]
    simp only [hr, outputStage, outputToPipe]
    rw [Function.update_of_ne (Nat.succ_ne_self i), Function.update_self]
    exact ⟨Pipe.contents_produce _, Pipe.size_produce _⟩
  have hother : ∀ m, m ≠ i → m ≠ i + 1 → r.2.pipe m = s.pipe m := by
    intro m hm hm'
    simp only [hr, outputStage, outputToPipe]
    rw [Function.update_of_ne hm, Function.update_of_ne hm']
  refine ⟨⟨fun m hm => ?_, hs.output⟩, r.1, ?_, ?_, fun hne hroom => ?_⟩
  · rcases eq_or_ne m i with rfl | hne
    · rw [hin.2, hs.pipes m hm]
    · rcases eq_or_ne m (i + 1) with rfl | hne'
      · rw [hout.2, hs.pipes _ hm]
      · rw [hother m hne hne', hs.pipes m hm]
  · rw [queue_succ (by omega), Pipe.length_contents]
    exact hle.trans (s.pipe i).filledRight_le_count
  · refine eq_move ?_ ?_ fun j hj hj' => ?_
    · rw [queue_succ (by omega), queue_succ (by omega), hin.1]
    · rw [queue_succ (by omega), queue_succ (by omega), queue_succ (by omega), hout.1]
    · rw [queue, queue]
      split
      · rfl
      · rw [hother (j - 1) (by omega) (by omega)]
        rfl
  · rw [queue_succ (by omega)] at hne hroom
    refine (P.handler (i + 1)).copied_pos _ _ _ ?_ (Pipe.emptyRight_pos _ ?_)
    · apply List.ne_nil_of_length_pos
      rw [Pipe.length_run]
      exact Pipe.filledRight_pos _ hne
    · rwa [hs.pipes (i + 1) (by omega)]

theorem runLastStage_moves (hs : P.Sized cap s) :
    P.Sized cap (P.runLastStage s) ∧
      Moves cap (P.num_stages - 1) (P.queue s) (P.queue (P.runLastStage s)) := by
  have hn := P.two_le
  obtain ⟨i, hi⟩ : ∃ i, P.num_stages = i + 2 := ⟨P.num_stages - 2, by omega⟩
  set h := P.handler (P.num_stages - 1) with hh
  set ipipe := s.pipe (P.num_stages - 2) with hpipe
  have hle : h.copied s.args ipipe.run s.output_size ≤ ipipe.filledRight :=
    (h.copied_le_in _ _ _).trans ipipe.length_run.le
  have hlast : ∀ s', P.queue s' (P.num_stages - 1) = (s'.pipe (P.num_stages - 2)).contents := by
    intro s'
    rw [show P.num_stages - 1 = P.num_stages - 2 + 1 by omega, queue_succ (by omega)]
  have hsucc : P.num_stages - 1 + 1 = P.num_stages := by omega
  have hlen := h.copied_le_out s.args ipipe.run s.output_size
  refine ⟨⟨fun m hm => ?_, ?_⟩, h.copied s.args ipipe.run s.output_size, ?_, ?_, fun hne hroom => ?_⟩
  · rcases eq_or_ne m (P.num_stages - 2) with rfl | hne
    · simp only [runLastStage, Function.update_self]
      rw [Pipe.size_consume, hs.pipes _ hm]
    · simp only [runLastStage]
      rw [Function.update_of_ne hne, hs.pipes m hm]
  · have houtput := hs.output
    simp only [runLastStage, ← hh, ← hpipe, List.length_append, List.length_take, Pipe.length_run]
    rw [min_eq_left hle]
    omega
  · rw [hlast, Pipe.length_contents]
    exact hle.trans ipipe.filledRight_le_count
  · refine eq_move ?_ ?_ fun j hj hj' => ?_
    · rw [hlast, hlast]
      simp only [runLastStage, Function.update_self]
      exact Pipe.contents_consume _
    · rw [hlast, hsucc, queue_last, queue_last, ← hpipe]
      simp only [runLastStage, ← hh, ← hpipe]
      rw [Pipe.run_eq, List.take_take, ← Pipe.run_eq, min_eq_left hle]
    · rw [queue, queue]
      split
      · rfl
      · split
        · simp only [runLastStage]
          rw [Function.update_of_ne (by omega)]
        · rw [if_neg (by omega), if_neg (by omega)]
  · rw [hlast] at hne
    rw [hsucc, queue_last] at hroom
    refine h.copied_pos _ _ _ ?_ (by have := hs.output; omega)
    apply List.ne_nil_of_length_pos
    rw [Pipe.length_run]
    exact Pipe.filledRight_pos _ hne

/-! ## The loops -/

theorem runIntermediateStage_spec (done : Bool) (hs : P.Sized cap s) (hi : i + 2 < P.num_stages) :
    let r := P.runIntermediateStage i done s
    P.Sized cap r.2 ∧ Moves cap (i + 1) (P.queue s) (P.queue r.2) ∧
      (r.1 = true ↔ done = true ∧ P.queue s (i + 1) = []) := by
  intro r
  have hempty : (s.pipe i).isEmpty = true ↔ P.queue s (i + 1) = [] := by
    rw [Pipe.isEmpty_iff, queue_succ (by omega)]
  obtain ⟨hsized, hmoves⟩ := outputStage_moves hs hi
  simp only [r, runIntermediateStage]
  split
  · rename_i hskip
    rw [Bool.and_eq_true, Bool.not_eq_true'] at hskip
    refine ⟨hs, .refl_of_nil (hempty.mp hskip.1), fun h => absurd h Bool.false_ne_true, ?_⟩
    rintro ⟨hdone, -⟩
    exact absurd (hdone.symm.trans hskip.2) Bool.false_ne_true.symm
  · refine ⟨hsized, hmoves, ?_⟩
    rw [Bool.and_eq_true, Bool.and_eq_true, beq_iff_eq, hempty]
    constructor
    · rintro ⟨⟨hnil, hdone⟩, -⟩
      exact ⟨hdone, hnil⟩
    · rintro ⟨hdone, hnil⟩
      -- there is nothing to read
      have hrun : (s.pipe i).run.length = 0 := by
        have := (s.pipe i).filledRight_le_count
        rw [queue_succ (by omega), ← List.length_eq_zero_iff, Pipe.length_contents] at hnil
        rw [Pipe.length_run]
        omega
      have := (P.handler (i + 1)).copied_le_in s.args (s.pipe i).run (s.pipe (i + 1)).emptyRight
      exact ⟨⟨hnil, hdone⟩, Nat.le_zero.mp (hrun ▸ this)⟩

/-- The intermediate stages from a stage on get their turn. The stages before `start` are done, and
then the ones before the new `start`; if there is nothing to do for any of them, they all are. -/
theorem intermediateLoop_spec (count i start : Nat) (done : Bool) (hs : P.Sized cap s)
    (hcount : i + count + 2 = P.num_stages) (hstart : start ≤ i + 1)
    (hdone : done = true → start = i + 1) :
    let r := P.intermediateLoop count i start done s
    P.Sized cap r.2 ∧ Pass cap (P.num_stages - 1) (i + 1) (P.queue s) (P.queue r.2) ∧
      start ≤ r.1 ∧ r.1 ≤ P.num_stages - 1 ∧
      ((∀ j, j < start → P.queue s j = []) → ∀ j, j < r.1 → P.queue r.2 j = []) ∧
      (done = true → (∀ j, j < P.num_stages - 1 → P.queue s j = []) → r.1 = P.num_stages - 1) := by
  induction count generalizing i start done s with
  | zero =>
    have hend : P.num_stages - 1 = i + 1 := by omega
    rw [intermediateLoop, hend]
    exact ⟨hs, .done _, le_rfl, hstart, id, fun h _ => hdone h⟩
  | succ count ih =>
    obtain ⟨hsized, hmoves, hiff⟩ := runIntermediateStage_spec (i := i) done hs (by omega)
    set r := P.runIntermediateStage i done s with hr
    rw [intermediateLoop, ← hr]
    cases hr1 : r.1 with
    | false =>
      obtain ⟨hs', hpass, hle, hle', hempty', -⟩ := ih (i + 1) start false hsized (by omega)
        (by omega) (fun h => absurd h Bool.false_ne_true)
      refine ⟨hs', .step (by omega) hmoves hpass, hle, hle', fun hempty => hempty' fun j hj => ?_,
        fun hd hall => ?_⟩
      · rw [(Pass.single hmoves).before (by omega), hempty j hj]
      have hdone' := hiff.mpr ⟨hd, hall (i + 1) (by omega)⟩
      rw [hr1] at hdone'
      exact absurd hdone' Bool.false_ne_true
    | true =>
      obtain ⟨hd, hnil⟩ := hiff.mp hr1
      have hsame := hmoves.eq_of_nil hnil
      obtain ⟨hs', hpass, hle, hle', hempty', hall'⟩ := ih (i + 1) (start + 1) true hsized (by omega)
        (by omega) (fun _ => by rw [hdone hd])
      rw [hsame] at hempty' hall'
      refine ⟨hs', .step (by omega) hmoves hpass, by rw [if_pos rfl]; omega, hle',
        fun hempty => hempty' fun j hj => ?_, fun _ hall => hall' rfl hall⟩
      rcases Nat.lt_or_ge j start with hlt | hge
      · exact hempty j hlt
      · rw [show j = i + 1 by have := hdone hd; omega, hnil]

theorem runAllIntermediate_pass (done : Bool) (hs : P.Sized cap s) (hpos : 0 < start)
    (hstart : start ≤ P.num_stages - 1) :
    let s' := P.runLastStage (P.runAllIntermediate start done s).2
    P.Sized cap s' ∧ Pass cap P.num_stages start (P.queue s) (P.queue s') := by
  have hn := P.two_le
  obtain ⟨hs', hpass, -⟩ := intermediateLoop_spec (P.num_stages - 1 - start) (start - 1) start done
    hs (by omega) (by omega) fun _ => by omega
  obtain ⟨hs'', hmoves⟩ := runLastStage_moves hs'
  have hlast := Pass.single hmoves
  rw [show P.num_stages - 1 + 1 = P.num_stages by omega] at hlast
  rw [show start - 1 + 1 = start by omega] at hpass
  exact ⟨hs'', hpass.trans hlast (by omega)⟩

theorem runAllIntermediate_done (hs : P.Sized cap s) (hpos : 0 < start)
    (hstart : start ≤ P.num_stages - 1) (hempty : ∀ j, j < start → P.queue s j = []) :
    let r := P.runAllIntermediate start true s
    start ≤ r.1 ∧ r.1 ≤ P.num_stages - 1 ∧
      (∀ j, j < r.1 → P.queue (P.runLastStage r.2) j = []) ∧
      ((∀ j, j < P.num_stages - 1 → P.queue s j = []) → r.1 = P.num_stages - 1) := by
  have hn := P.two_le
  obtain ⟨hs', -, hle, hle', hempty', hall⟩ := intermediateLoop_spec
    (P.num_stages - 1 - start) (start - 1) start true hs (by omega) (by omega) fun _ => by omega
  obtain ⟨-, hmoves⟩ := runLastStage_moves hs'
  refine ⟨hle, hle', fun j hj => ?_, hall rfl⟩
  rw [runAllIntermediate, (Pass.single hmoves).before (lt_of_lt_of_le hj hle'), hempty' hempty j hj]

section
variable (hcap : ∀ j, 0 < j → j < P.num_stages → 0 < cap j)
include hcap

theorem mainLoop_spec (fuel : Nat) (hs : P.Sized cap s) (hfuel : weight (P.queue s) P.num_stages < fuel)
    (hroom : (flow (P.queue s) P.num_stages).length ≤ cap P.num_stages) :
    ∃ s', P.mainLoop fuel s = some s' ∧ P.Sized cap s' ∧ s'.input = [] ∧
      flow (P.queue s') P.num_stages = flow (P.queue s) P.num_stages ∧
      weight (P.queue s') P.num_stages ≤ weight (P.queue s) P.num_stages := by
  have hn := P.two_le
  induction fuel generalizing s with
  | zero => omega
  | succ fuel ih =>
    obtain ⟨hsized, hmoves⟩ := outputToPipe_moves hs
    rw [mainLoop]
    dsimp only
    split
    · rename_i hbreak
      refine ⟨_, rfl, ?_⟩
      have hsame : { (P.outputToPipe 0 s.input s).2 with
          input := s.input.drop (P.outputToPipe 0 s.input s).1 } =
          (P.outputToPipe 0 s.input s).2 := by
        rw [hbreak.2, List.drop_zero]
        rfl
      rw [hsame] at hsized hmoves
      rw [hmoves.eq_of_nil hbreak.1]
      exact ⟨hsized, hbreak.1, rfl, le_rfl⟩
    · rename_i hgo
      -- the handler copies nothing if there is no input
      have hinput : s.input ≠ [] := by
        intro hnil
        refine hgo ⟨hnil, Nat.le_zero.mp ?_⟩
        have := (P.handler 0).copied_le_in s.args s.input (s.pipe 0).emptyRight
        rwa [hnil, List.length_nil, ← hnil] at this
      obtain ⟨hs', hpass'⟩ := runAllIntermediate_pass false hsized Nat.one_pos (by omega)
      have hpass := Pass.step (by omega) hmoves hpass'
      have hlt := hpass.weight_lt hcap hroom ⟨0, le_rfl, by omega, hinput⟩
      obtain ⟨s', hrun, hs'', hnil, hflow, hle⟩ := ih hs' (by omega) (by rwa [hpass.flow_eq])
      exact ⟨s', hrun, hs'', hnil, hflow.trans hpass.flow_eq, by omega⟩

theorem drainLoop_spec (fuel not_done : Nat) (hs : P.Sized cap s)
    (hroom : (flow (P.queue s) P.num_stages).length ≤ cap P.num_stages) (hpos : 0 < not_done)
    (hle : not_done ≤ P.num_stages - 1) (hempty : ∀ j, j < not_done → P.queue s j = [])
    (hfuel : weight (P.queue s) P.num_stages +
      (if not_done < P.num_stages - 1 then 1 else 0) < fuel) :
    ∃ s', P.drainLoop fuel not_done s = some s' ∧ P.Sized cap s' ∧
      flow (P.queue s') P.num_stages = flow (P.queue s) P.num_stages ∧
      ∀ j, j < P.num_stages - 1 → P.queue s' j = [] := by
  have hn := P.two_le
  induction fuel generalizing s not_done with
  | zero => omega
  | succ fuel ih =>
    rw [drainLoop]
    split
    · rename_i hlt
      rw [if_pos hlt] at hfuel
      obtain ⟨hs', hpass⟩ := runAllIntermediate_pass true hs hpos hle
      obtain ⟨hge, hle', hempty', hall⟩ := runAllIntermediate_done hs hpos hle hempty
      have hfuel' : weight (P.queue (P.runLastStage (P.runAllIntermediate not_done true s).2))
          P.num_stages + (if (P.runAllIntermediate not_done true s).1 < P.num_stages - 1 then 1
            else 0) < fuel := by
        by_cases hsome : ∃ m, not_done ≤ m ∧ m < P.num_stages ∧ P.queue s m ≠ []
        · have := hpass.weight_lt hcap hroom hsome
          split <;> omega
        · have hend := hall fun j hj => by
            by_contra hne
            rcases Nat.lt_or_ge j not_done with hj' | hj'
            · exact hne (hempty j hj')
            · exact hsome ⟨j, hj', by omega, hne⟩
          have := hpass.weight_le
          rw [if_neg (by omega)]
          omega
      obtain ⟨s', hrun, hs'', hflow, hdone⟩ := ih _ hs' (by rwa [hpass.flow_eq]) (by omega) hle'
        hempty' hfuel'
      exact ⟨s', hrun, hs'', hflow.trans hpass.flow_eq, hdone⟩
    · exact ⟨s, rfl, hs, rfl, fun j hj => hempty j (by omega)⟩

end

/-! ## Runs -/

/-- The number of bytes that the last stage copies if it is called. -/
def lastCopied (P : Pipeline σ) (s : PipelineState σ) : Nat :=
  (P.handler (P.num_stages - 1)).copied s.args (s.pipe (P.num_stages - 2)).run s.output_size

/-- The output is the input, the number of its bytes is returned, and no byte is left in a pipe. -/
def Delivered (P : Pipeline σ) (s : PipelineState σ) (r : Nat × PipelineState σ) : Prop :=
  r.2.output = s.input ∧ r.1 = s.input.length ∧
    ∀ i, i + 1 < P.num_stages → (r.2.pipe i).isEmpty = true

theorem contents_runLastStage :
    ((P.runLastStage s).pipe (P.num_stages - 2)).contents =
      (s.pipe (P.num_stages - 2)).contents.drop (P.lastCopied s) := by
  simp only [runLastStage, Function.update_self]
  exact Pipe.contents_consume _

theorem lastCopied_le : P.lastCopied s ≤ (s.pipe (P.num_stages - 2)).contents.length := by
  rw [Pipe.length_contents]
  exact ((P.handler _).copied_le_in _ _ _).trans
    ((s.pipe _).length_run.le.trans (s.pipe _).filledRight_le_count)

theorem flow_eq_last (hempty : ∀ j, j < P.num_stages - 1 → P.queue s j = []) :
    flow (P.queue s) P.num_stages = s.output ++ (s.pipe (P.num_stages - 2)).contents := by
  have hn := P.two_le
  obtain ⟨m, hm⟩ : ∃ m, P.num_stages = m + 2 := ⟨P.num_stages - 2, by omega⟩
  have hnil : flow (P.queue s) m = [] := by
    rw [flow_of_nil fun j _ hj => hempty j (by omega), hempty 0 (by omega)]
  have hlast : P.queue s (m + 2) = s.output := by rw [← hm, queue_last]
  rw [hm, flow, flow, hnil, hlast, queue_succ (by omega), List.append_nil, Nat.add_sub_cancel]

theorem runLastStage_delivers (hs : P.Sized cap s) (hcap : cap P.num_stages = s0.output_size)
    (hflow : flow (P.queue s) P.num_stages = s0.input)
    (hempty : ∀ j, j < P.num_stages - 1 → P.queue s j = []) :
    P.Delivered s0 (s0.output_size - (P.runLastStage s).output_size, P.runLastStage s) ↔
      P.lastCopied s = (s.pipe (P.num_stages - 2)).contents.length := by
  have hn := P.two_le
  obtain ⟨hs', hmoves⟩ := runLastStage_moves hs
  have hpass := Pass.single hmoves
  rw [show P.num_stages - 1 + 1 = P.num_stages by omega] at hpass
  have hempty' : ∀ j, j < P.num_stages - 1 → P.queue (P.runLastStage s) j = [] := by
    intro j hj
    rw [hpass.before hj, hempty j hj]
  have hflow' := hpass.flow_eq
  rw [hflow, flow_eq_last hempty', contents_runLastStage] at hflow'
  have hle := lastCopied_le (P := P) (s := s)
  constructor
  · rintro ⟨-, -, hpipes⟩
    have hlast := (Pipe.isEmpty_iff _).mp (hpipes (P.num_stages - 2) (by omega))
    rw [contents_runLastStage, List.drop_eq_nil_iff] at hlast
    omega
  · intro hall
    rw [hall, List.drop_length, List.append_nil] at hflow'
    have houtput := hs'.output
    refine ⟨hflow', ?_, fun i hi => (Pipe.isEmpty_iff _).mpr ?_⟩
    · dsimp only
      rw [← hflow']
      omega
    · dsimp only
      rcases Nat.lt_or_ge (i + 1) (P.num_stages - 1) with hlt | hge
      · rw [← queue_succ hi, hempty' _ hlt]
      · rw [show i = P.num_stages - 2 by omega, contents_runLastStage, hall, List.drop_length]

end

/-- **A run of a pipeline comes to its end, and it delivers its input if and only if the last call
of the last stage takes what is left in the last pipe.** Before that call all other pipes are empty
and no byte has been lost, but the call is not repeated. -/
theorem pipeline_delivers_iff (P : Pipeline σ) (s : PipelineState σ)
    (hempty : ∀ i, i + 1 < P.num_stages → (s.pipe i).isEmpty = true) (houtput : s.output = [])
    (hspace : s.input.length ≤ s.output_size) {fuel : Nat}
    (hfuel : P.num_stages * s.input.length + 1 < fuel) :
    ∃ last r, P.runUntilLast fuel s = some last ∧ P.runPipelineD fuel s = some r ∧
      (P.Delivered s r ↔ P.lastCopied last = (last.pipe (P.num_stages - 2)).contents.length) := by
  have hn := P.two_le
  let cap : Nat → Nat := fun j => if j < P.num_stages then (s.pipe (j - 1)).size else s.output_size
  have hcap : ∀ j, 0 < j → j < P.num_stages → 0 < cap j := by
    intro j _ hj
    simp only [cap, if_pos hj]
    exact Nat.lt_of_le_of_lt (Nat.zero_le _) (s.pipe (j - 1)).cons_lt
  have hlast : cap P.num_stages = s.output_size := if_neg (lt_irrefl _)
  have hs : P.Sized cap s := by
    refine ⟨fun i hi => ?_, ?_⟩
    · simp only [cap, if_pos hi, Nat.add_sub_cancel]
    · rw [hlast, houtput, List.length_nil, Nat.zero_add]
  have hnil : ∀ j, 0 < j → j ≤ P.num_stages → P.queue s j = [] := by
    intro j hj hle
    rcases Nat.lt_or_ge j P.num_stages with hlt | hge
    · obtain ⟨i, rfl⟩ : ∃ i, j = i + 1 := ⟨j - 1, by omega⟩
      rw [queue_succ hlt, ← Pipe.isEmpty_iff, hempty i hlt]
    · rw [show j = P.num_stages by omega, queue_last, houtput]
  have hflow : flow (P.queue s) P.num_stages = s.input := flow_of_nil hnil
  have hweight : weight (P.queue s) P.num_stages = P.num_stages * s.input.length :=
    weight_of_nil hnil
  obtain ⟨s1, hmain, hs1, hinput, hflow1, hweight1⟩ := mainLoop_spec hcap fuel hs
    (by omega) (by rw [hflow, hlast]; exact hspace)
  obtain ⟨s2, hdrain, hs2, hflow2, hempty2⟩ := drainLoop_spec hcap fuel 1
    hs1 (by rw [hflow1, hflow, hlast]; exact hspace) Nat.one_pos (by omega)
    (fun j hj => by rw [Nat.lt_one_iff.mp hj]; exact hinput) (by split <;> omega)
  have hrun : P.runUntilLast fuel s = some s2 := by rw [runUntilLast, hmain, Option.bind_some, hdrain]
  refine ⟨s2, _, hrun, by rw [runPipelineD, hrun]; rfl, ?_⟩
  exact runLastStage_delivers hs2 hlast (hflow2.trans (hflow1.trans hflow)) hempty2

/-- Five bytes go through pipes of two bytes, one by one from the first to the second. -/
theorem pipeline_delivers_iff_threeStages :
    let P : Pipeline Unit :=
      ⟨3, fun i => if i = 1 then .upTo 1 (by decide) else .upTo 8 (by decide), by decide⟩
    let s : PipelineState Unit := .start 2 (by decide) [1, 2, 3, 4, 5] 8
    ∃ r, P.runPipelineD 17 s = some r ∧ P.Delivered s r := by
  intro P s
  have hlast : (P.runUntilLast 17 s).map (fun last =>
      decide (P.lastCopied last = (last.pipe (P.num_stages - 2)).contents.length)) = some true := by
    decide +kernel
  obtain ⟨last, r, hlast', hrun, hiff⟩ := pipeline_delivers_iff P s (fun _ _ => rfl) rfl
    (by decide) (show P.num_stages * s.input.length + 1 < 17 by decide)
  rw [hlast', Option.map_some, Option.some_inj, decide_eq_true_eq] at hlast
  exact ⟨r, hrun, hiff.mpr hlast⟩

/-- Four bytes go into one pipe at once, and the last stage copies one byte at a time: two bytes
come out. -/
theorem pipeline_loses_bytes :
    let P : Pipeline Unit :=
      ⟨2, fun i => if i = 1 then .upTo 1 (by decide) else .upTo 8 (by decide), by decide⟩
    let s : PipelineState Unit := .start 4 (by decide) [1, 2, 3, 4] 8
    (P.runPipelineD 10 s).map (fun r => (r.1, r.2.output, (r.2.pipe 0).contents)) =
      some (2, [1, 2], [3, 4]) := by
  decide +kernel

end Pipeline

end Xdp2
