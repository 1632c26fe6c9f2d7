import Xdp2.Accelerator.Pipe
import Mathlib.Logic.Function.Basic

/-!
# Running a pipeline

`accelerator.c`, `__xdp2_run_pipeline_d` for stages of type `XDP2_PIPELINE_D`. While there is input
all stages get their turn; then the intermediate stages are run until they are done, and the last
stage again.

A handler is a `CopyHandler`: a call copies some of the bytes it is given, at least one if there are
any and there is space. How many depends on its argument, which it may change.
-/

namespace Xdp2

/-- `handler_dd` of an accelerator that copies. -/
structure CopyHandler (σ : Type) where
  /-- The number of bytes copied, which are both consumed and produced. -/
  copied : (arg : σ) → (ibytes : List UInt8) → (obytes_size : Nat) → Nat
  next : (arg : σ) → (ibytes : List UInt8) → (obytes_size : Nat) → σ
  copied_le_in : ∀ arg ibytes size, copied arg ibytes size ≤ ibytes.length
  copied_le_out : ∀ arg ibytes size, copied arg ibytes size ≤ size
  copied_pos : ∀ arg ibytes size, ibytes ≠ [] → 0 < size → 0 < copied arg ibytes size

/-- A handler that copies at most `limit` bytes at a time. -/
def CopyHandler.upTo (limit : Nat) (hpos : 0 < limit) : CopyHandler Unit where
  copied _ ibytes size := min limit (min ibytes.length size)
  next _ _ _ := ()
  copied_le_in _ _ _ := (min_le_right _ _).trans (min_le_left _ _)
  copied_le_out _ _ _ := (min_le_right _ _).trans (min_le_right _ _)
  copied_pos _ _ _ hne hsize :=
    lt_min hpos (lt_min (List.length_pos_of_ne_nil hne) hsize)

/-- `struct xdp2_pipeline`: the number of stages and their handlers. -/
structure Pipeline (σ : Type) where
  num_stages : Nat
  handler : Nat → CopyHandler σ
  two_le : 2 ≤ num_stages

/-- What a run works on: the pipe behind each stage, the arguments, the input that is left, the
output so far and the space left for it. -/
structure PipelineState (σ : Type) where
  pipe : Nat → Pipe
  args : σ
  input : List UInt8
  output : List UInt8
  output_size : Nat

variable {σ : Type}

/-- The state before a run with pipes of one size. -/
def PipelineState.start (size : Nat) (hpos : 0 < size) (input : List UInt8) (output_size : Nat) :
    PipelineState Unit where
  pipe _ := Pipe.new size hpos
  args := ()
  input := input
  output := []
  output_size := output_size

namespace Pipeline

/-- `output_to_pipe_d_`: the stage `i` reads bytes and writes to its pipe. -/
def outputToPipe (P : Pipeline σ) (i : Nat) (ibytes : List UInt8) (s : PipelineState σ) :
    Nat × PipelineState σ :=
  let h := P.handler i
  let opipe := s.pipe i
  let copied := h.copied s.args ibytes opipe.emptyRight
  have hle : (ibytes.take copied).length ≤ opipe.emptyRight :=
    (List.length_take_le _ _).trans (h.copied_le_out _ _ _)
  (copied, { s with
    pipe := Function.update s.pipe i (opipe.produce (ibytes.take copied) hle)
    args := h.next s.args ibytes opipe.emptyRight })

/-- `output_stage`: the stage `i + 1` reads from the pipe `i`. -/
def outputStage (P : Pipeline σ) (i : Nat) (s : PipelineState σ) : Nat × PipelineState σ :=
  let ipipe := s.pipe i
  let r := P.outputToPipe (i + 1) ipipe.run s
  have hle : r.1 ≤ ipipe.filledRight :=
    ((P.handler (i + 1)).copied_le_in _ _ _).trans ipipe.length_run.le
  (r.1, { r.2 with pipe := Function.update r.2.pipe i (ipipe.consume r.1 hle) })

/-- `run_intermediate_stage`: whether the stage `i + 1` is done, if the one before it is. -/
def runIntermediateStage (P : Pipeline σ) (i : Nat) (done : Bool) (s : PipelineState σ) :
    Bool × PipelineState σ :=
  let ipipe := s.pipe i
  if ipipe.isEmpty && !done then (false, s)
  else
    let ldone := ipipe.isEmpty && done
    let r := P.outputStage i s
    (ldone && r.1 == 0, r.2)

/-- The loop of `run_all_intermedate`, over `count` stages from the stage `i + 1` on. -/
def intermediateLoop (P : Pipeline σ) :
    (count i start : Nat) → Bool → PipelineState σ → Nat × PipelineState σ
  | 0, _, start, _, s => (start, s)
  | count + 1, i, start, done, s =>
    let r := P.runIntermediateStage i done s
    P.intermediateLoop count (i + 1) (if r.1 then start + 1 else start) r.1 r.2

/-- `run_all_intermedate`: the first intermediate stage that is not done. -/
def runAllIntermediate (P : Pipeline σ) (start : Nat) (done : Bool) (s : PipelineState σ) :
    Nat × PipelineState σ :=
  P.intermediateLoop (P.num_stages - 1 - start) (start - 1) start done s

/-- `run_last_stage`, and its callers advance in the output. The test for an empty pipe reads the
pointer `done` and not what it points to, so the handler is called for an empty pipe as well. -/
def runLastStage (P : Pipeline σ) (s : PipelineState σ) : PipelineState σ :=
  let i := P.num_stages - 2
  let h := P.handler (P.num_stages - 1)
  let ipipe := s.pipe i
  let produced := h.copied s.args ipipe.run s.output_size
  have hle : produced ≤ ipipe.filledRight := (h.copied_le_in _ _ _).trans ipipe.length_run.le
  { s with
    pipe := Function.update s.pipe i (ipipe.consume produced hle)
    args := h.next s.args ipipe.run s.output_size
    output := s.output ++ ipipe.run.take produced
    output_size := s.output_size - produced }

/-- The loop of `__xdp2_run_pipeline_d`. -/
def mainLoop (P : Pipeline σ) : (fuel : Nat) → PipelineState σ → Option (PipelineState σ)
  | 0, _ => none
  | fuel + 1, s =>
    let r := P.outputToPipe 0 s.input s
    if s.input = [] ∧ r.1 = 0 then some r.2
    else
      let s := { r.2 with input := s.input.drop r.1 }
      P.mainLoop fuel (P.runLastStage (P.runAllIntermediate 1 false s).2)

/-- The first loop of `run_stages_after_first`. -/
def drainLoop (P : Pipeline σ) :
    (fuel not_done : Nat) → PipelineState σ → Option (PipelineState σ)
  | 0, _, _ => none
  | fuel + 1, not_done, s =>
    if not_done < P.num_stages - 1 then
      let r := P.runAllIntermediate not_done true s
      P.drainLoop fuel r.1 (P.runLastStage r.2)
    else some s

/-- A run up to the second loop of `run_stages_after_first`. -/
def runUntilLast (P : Pipeline σ) (fuel : Nat) (s : PipelineState σ) : Option (PipelineState σ) :=
  (P.mainLoop fuel s).bind (P.drainLoop fuel 1)

/-- `__xdp2_run_pipeline_d`. The second loop of `run_stages_after_first` sets `*done` after its
body, so that the body, a call of the last stage, is run once. -/
def runPipelineD (P : Pipeline σ) (fuel : Nat) (s : PipelineState σ) :
    Option (Nat × PipelineState σ) :=
  (P.runUntilLast fuel s).map fun s' =>
    let s' := P.runLastStage s'
    (s.output_size - s'.output_size, s')

end Pipeline

end Xdp2
