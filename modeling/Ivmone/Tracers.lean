import Ivmone.Lib.Nesting
import Ivmone.Tracing

/-!
# The tracers

`tracing.cpp`: the histogram tracer, which counts the opcodes of each execution, and the instruction
tracer, which writes a line for each instruction. An execution may call the host, which may execute
other code on the same VM before it answers; so the tracers keep a stack of contexts. What a tracer
is told of an execution is a span in the sense of `Lib.Nesting`, and the result of this module is
that both tracers render spans: whatever is executed in between, each execution is reported with its
own code, counts and gas, and the contexts are left as they were.
-/

set_option autoImplicit false

namespace Ivmone

open Lib Baseline

/-- The arguments of `notify_execution_start`. -/
structure ExecutionStart where
  rev : Revision
  msg : Message
  code : List Byte

/-- A call of one of the `notify` functions of a tracer. -/
abbrev TraceEvent := SpanEvent ExecutionStart Notification ExecutionResult

/-- What is executed in an execution: its own instructions, and other executions. -/
abbrev Executions := Spans ExecutionStart Notification ExecutionResult

/-- A table of `ivmc_get_instruction_names_table`. Undefined instructions have no name. -/
abbrev NamesTable := Byte → Option String

/-- The texts that the tracers take from the IVMC and intx libraries. -/
structure Formats where
  /-- `ivmc_get_instruction_names_table`. -/
  namesTable : Revision → NamesTable
  /-- `operator<<` for `ivmc_revision`. -/
  revision : Revision → String
  /-- `operator<<` for `ivmc_status_code`. -/
  statusCode : StatusCode → String
  /-- `ivmc::hex` of a byte. -/
  hexByte : Byte → String
  /-- `ivmc::hex` of a byte string. -/
  hex : List Byte → String
  /-- `to_string` of a word in base 16. -/
  hexWord : UInt256 → String

/-- `get_name`. -/
def getName (f : Formats) (names : NamesTable) (opcode : Byte) : String :=
  (names opcode).getD ("0x" ++ f.hexByte opcode)

/-! ## The histogram tracer -/

namespace HistogramTracer

/-- `HistogramTracer::Context`. -/
structure Context where
  depth : Int
  code : List Byte
  opcodeNames : NamesTable
  counts : Byte → BitVec 32 := fun _ => 0

end HistogramTracer

/-- `HistogramTracer`. -/
structure HistogramTracer where
  contexts : List HistogramTracer.Context := []

/-- The report of one execution, in CSV format. -/
def histogramReport (f : Formats) (depth : Int) (names : NamesTable) (counts : Byte → BitVec 32) :
    String :=
  "--- # HISTOGRAM depth=" ++ toString depth ++ "\nopcode,count\n" ++
    String.join ((List.range 256).map fun i =>
      let opcode := BitVec.ofNat 8 i
      if counts opcode ≠ 0 then
        getName f names opcode ++ "," ++ toString (counts opcode).toNat ++ "\n"
      else "")

namespace HistogramTracer

def onExecutionStart (f : Formats) (t : HistogramTracer) (o : ExecutionStart) :
    HistogramTracer × String :=
  ({ contexts := { depth := o.msg.depth, code := o.code, opcodeNames := f.namesTable o.rev } ::
      t.contexts }, "")

/-- There is no result without a context, or if the code is read beyond its end. -/
def onInstructionStart (t : HistogramTracer) (n : Notification) :
    Option (HistogramTracer × String) :=
  match t.contexts with
  | [] => none
  | ctx :: contexts =>
      ctx.code[n.offset]?.map fun opcode =>
        ({ contexts :=
            { ctx with
              counts := fun b => if b = opcode then ctx.counts b + 1 else ctx.counts b } ::
            contexts }, "")

def onExecutionEnd (f : Formats) (t : HistogramTracer) : Option (HistogramTracer × String) :=
  match t.contexts with
  | [] => none
  | ctx :: contexts =>
      some ({ contexts := contexts }, histogramReport f ctx.depth ctx.opcodeNames ctx.counts)

end HistogramTracer

/-! ## The instruction tracer -/

namespace InstructionTracer

/-- `InstructionTracer::Context`. -/
structure Context where
  code : List Byte
  startGas : Int

end InstructionTracer

/-- `InstructionTracer`. The names of opcodes are a null pointer while nothing is executed. -/
structure InstructionTracer where
  contexts : List InstructionTracer.Context := []
  opcodeNames : Option NamesTable := none

namespace InstructionTracer

/-- The loop of `output_stack`, with the items below `i` left to write. -/
def outputItems (f : Formats) (stack : List UInt256) (top : Nat) : Nat → String
  | 0 => ""
  | i + 1 =>
      (if i ≠ top then "," else "") ++ "\"0x" ++ f.hexWord (stack.getD i 0) ++ "\"" ++
        outputItems f stack top i

def outputStack (f : Formats) (stack : List UInt256) : String :=
  let top := stack.length - 1
  ",\"stack\":[" ++ outputItems f stack top stack.length ++ "]"

/-- The line at the start of an execution. -/
def startLine (f : Formats) (o : ExecutionStart) : String :=
  "\x7b" ++ "\"depth\":" ++ toString o.msg.depth ++
    ",\"rev\":\"" ++ f.revision o.rev ++ "\"" ++
    ",\"static\":" ++ (if o.msg.isStatic then "true" else "false") ++ "\x7d\n"

/-- The line of an instruction. -/
def instructionLine (f : Formats) (names : NamesTable) (opcode : Byte) (n : Notification)
    (stack : String) : String :=
  "\x7b" ++ "\"pc\":" ++ toString n.offset ++
    ",\"op\":" ++ toString opcode.toNat ++
    ",\"opName\":\"" ++ getName f names opcode ++ "\"" ++
    ",\"gas\":" ++ toString n.gasLeft ++ stack ++
    ",\"memorySize\":" ++ toString n.memorySize ++ "\x7d\n"

/-- The line at the end of an execution. -/
def endLine (f : Formats) (startGas : Int) (result : ExecutionResult) : String :=
  "\x7b" ++ "\"error\":" ++
    (if result.status = .success then "null" else "\"" ++ f.statusCode result.status ++ "\"") ++
    ",\"gas\":" ++ toString result.gasLeft ++
    ",\"gasUsed\":" ++ toString (toInt64 (startGas - result.gasLeft)) ++
    ",\"output\":\"" ++ f.hex result.output ++ "\"" ++ "\x7d\n"

/-- The names are those of the revision of the outermost execution. -/
def onExecutionStart (f : Formats) (t : InstructionTracer) (o : ExecutionStart) :
    InstructionTracer × String :=
  let opcodeNames := if t.contexts.isEmpty then some (f.namesTable o.rev) else t.opcodeNames
  ({ contexts := ⟨o.code, o.msg.gas⟩ :: t.contexts, opcodeNames := opcodeNames }, startLine f o)

/-- There is no result without a context or names, or if the code is read beyond its end. -/
def onInstructionStart (f : Formats) (t : InstructionTracer) (n : Notification) :
    Option (InstructionTracer × String) :=
  match t.contexts, t.opcodeNames with
  | ctx :: _, some names =>
      ctx.code[n.offset]?.map fun opcode =>
        (t, instructionLine f names opcode n (outputStack f n.stack))
  | _, _ => none

def onExecutionEnd (f : Formats) (t : InstructionTracer) (result : ExecutionResult) :
    Option (InstructionTracer × String) :=
  match t.contexts with
  | [] => none
  | ctx :: contexts =>
      some ({
        contexts := contexts
        opcodeNames := if contexts.isEmpty then none else t.opcodeNames },
        endLine f ctx.startGas result)

end InstructionTracer

/-! ## Lists of tracers -/

/-- A tracer of one of the two kinds. -/
inductive Tracer
  | histogram (t : HistogramTracer)
  | instruction (t : InstructionTracer)

/-- The call of one of the virtual functions: the tracer after it and the text it has written. -/
def Tracer.on (f : Formats) : Tracer → TraceEvent → Option (Tracer × String)
  | histogram t, .opened o => some ((t.onExecutionStart f o).map .histogram id)
  | histogram t, .noted n => (t.onInstructionStart n).map (Prod.map .histogram id)
  | histogram t, .closed _ => (t.onExecutionEnd f).map (Prod.map .histogram id)
  | instruction t, .opened o => some ((t.onExecutionStart f o).map .instruction id)
  | instruction t, .noted n => (t.onInstructionStart f n).map (Prod.map .instruction id)
  | instruction t, .closed result => (t.onExecutionEnd f result).map (Prod.map .instruction id)

/-- `notify_execution_start`, `notify_instruction_start` and `notify_execution_end` of the first
tracer of a list: each tracer is called and passes the call on to the next one. -/
def notify (f : Formats) : List Tracer → TraceEvent → Option (List Tracer × List String) :=
  stepAll (Tracer.on f)

/-- The two kinds of tracers. -/
inductive TracerKind
  | histogram
  | instruction
  deriving DecidableEq, Repr

/-- `create_histogram_tracer` and `create_instruction_tracer`. -/
def TracerKind.create : TracerKind → Tracer
  | histogram => .histogram {}
  | instruction => .instruction {}

/-! ## Rendering -/

section Rendering

/-- How often an opcode occurs among the instructions that were executed. -/
def occurrences (code : List Byte) (ns : List Notification) (opcode : Byte) : Nat :=
  ns.countP fun n => code[n.offset]? = some opcode

/-- The reports of the histogram tracer: nothing until the end of an execution. -/
def histogramRendering (f : Formats) :
    Rendering ExecutionStart Notification ExecutionResult String where
  opened _ := ""
  noted _ _ := ""
  closed o ns _ :=
    histogramReport f o.msg.depth (f.namesTable o.rev) fun b =>
      BitVec.ofNat 32 (occurrences o.code ns b)

/-- The stack as it is written, bottom item first. -/
def stackText (f : Formats) (stack : List UInt256) : String :=
  ",\"stack\":[" ++ ",".intercalate (stack.reverse.map fun x => "\"0x" ++ f.hexWord x ++ "\"") ++
    "]"

/-- The lines of the instruction tracer, with the names of the outermost execution. -/
def instructionRendering (f : Formats) (names : NamesTable) :
    Rendering ExecutionStart Notification ExecutionResult String where
  opened o := InstructionTracer.startLine f o
  noted o n :=
    InstructionTracer.instructionLine f names (o.code.getD n.offset 0) n (stackText f n.stack)
  closed o _ result := InstructionTracer.endLine f o.msg.gas result

/-- What a tracer of a kind writes. -/
def TracerKind.rendering (f : Formats) (names : NamesTable) :
    TracerKind → Rendering ExecutionStart Notification ExecutionResult String
  | histogram => histogramRendering f
  | instruction => instructionRendering f names

end Rendering

section Stacks

variable (f : Formats)

theorem reverse_take_succ {stack : List UInt256} {i : Nat} (hi : i < stack.length) :
    (stack.take (i + 1)).reverse = stack.getD i 0 :: (stack.take i).reverse := by
  rw [List.getD_eq_getElem?_getD, List.take_add_one, List.getElem?_eq_getElem hi]
  simp

/-- The rounds of the loop from item `i` on write it and the items above it, bottom first, with a
comma before each of them except the bottom item of the stack. -/
theorem outputItems_eq {stack : List UInt256} {i : Nat} (hi : i < stack.length) :
    InstructionTracer.outputItems f stack (stack.length - 1) (i + 1) =
      (if i ≠ stack.length - 1 then "," else "") ++
        ",".intercalate ((stack.take (i + 1)).reverse.map fun x =>
          "\"0x" ++ f.hexWord x ++ "\"") := by
  induction i with
  | zero =>
      rw [reverse_take_succ hi]
      simp [InstructionTracer.outputItems, String.append_assoc]
  | succ i ih =>
      have hi' : i < stack.length := by omega
      rw [InstructionTracer.outputItems, ih hi', if_pos (show i ≠ stack.length - 1 by omega),
        reverse_take_succ hi, List.map_cons, String.intercalate_cons_of_ne_nil]
      · simp only [String.append_assoc]
      · rw [reverse_take_succ hi']
        exact List.cons_ne_nil _ _

theorem outputStack_eq (stack : List UInt256) :
    InstructionTracer.outputStack f stack = stackText f stack := by
  cases h : stack.length with
  | zero =>
      rw [List.length_eq_zero_iff] at h
      subst h
      rfl
  | succ n =>
      have hitems := outputItems_eq f (show n < stack.length by omega)
      rw [if_neg (by omega), List.take_of_length_le (by omega), String.empty_append, ← h] at hitems
      simp only [InstructionTracer.outputStack, stackText, hitems]

end Stacks

/-! ## The tracers render executions -/

section Laws

variable (f : Formats) (names : NamesTable)

/-- The instruction is one of the code. -/
def InCode (o : ExecutionStart) (n : Notification) : Prop := n.offset < o.code.length

/-- The tracer is of the given kind, and opcodes get the given names in an execution that starts
now: an instruction tracer takes them from the outermost execution. -/
def TracerKind.Names : TracerKind → Tracer → ExecutionStart → Prop
  | histogram, .histogram _, _ => True
  | instruction, .instruction t, o =>
      if t.contexts.isEmpty then t.opcodeNames = none ∧ f.namesTable o.rev = names
      else t.opcodeNames = some names
  | _, _, _ => False

/-- The tracer in an execution that was started, after some of its instructions. -/
def Tracer.inside (t : Tracer) (o : ExecutionStart) (ns : List Notification) : Tracer :=
  match t with
  | histogram t => .histogram {
      contexts := {
        depth := o.msg.depth
        code := o.code
        opcodeNames := f.namesTable o.rev
        counts := fun b => BitVec.ofNat 32 (occurrences o.code ns b) } :: t.contexts }
  | instruction t => .instruction {
      contexts := ⟨o.code, o.msg.gas⟩ :: t.contexts
      opcodeNames := some names }

theorem occurrences_append (code : List Byte) (ns : List Notification) {n : Notification}
    {opcode : Byte} (h : code[n.offset]? = some opcode) (b : Byte) :
    BitVec.ofNat 32 (occurrences code (ns ++ [n]) b) =
      if b = opcode then BitVec.ofNat 32 (occurrences code ns b) + 1
      else BitVec.ofNat 32 (occurrences code ns b) := by
  have happend : occurrences code (ns ++ [n]) b =
      occurrences code ns b + if b = opcode then 1 else 0 := by
    unfold occurrences
    rw [List.countP_append, List.countP_singleton, h]
    simp [eq_comm]
  rw [happend]
  split
  · rw [BitVec.ofNat_add]
    rfl
  · rfl

/-- The histogram tracer. -/
theorem renders_histogram :
    Renders (Tracer.on f) (histogramRendering f) InCode (TracerKind.Names f names .histogram)
      (Tracer.inside f names) where
  opened t o h := by
    cases t with
    | histogram t =>
        simp [Tracer.on, HistogramTracer.onExecutionStart, Tracer.inside, histogramRendering,
          occurrences]
    | instruction t => exact h.elim
  nested t o ns o' h := by
    cases t with
    | histogram t => trivial
    | instruction t => exact h.elim
  noted t o ns n h hn := by
    cases t with
    | histogram t =>
        have hopcode := List.getElem?_eq_getElem hn
        simp only [Tracer.on, HistogramTracer.onInstructionStart, Tracer.inside, hopcode]
        simp only [occurrences_append o.code ns hopcode]
        rfl
    | instruction t => exact h.elim
  closed t o ns result h := by
    cases t with
    | histogram t => rfl
    | instruction t => exact h.elim

/-- The instruction tracer. -/
theorem renders_instruction :
    Renders (Tracer.on f) (instructionRendering f names) InCode
      (TracerKind.Names f names .instruction) (Tracer.inside f names) where
  opened t o h := by
    cases t with
    | histogram t => exact h.elim
    | instruction t =>
        have hnames : (if t.contexts.isEmpty then some (f.namesTable o.rev) else t.opcodeNames) =
            some names := by
          simp only [TracerKind.Names] at h
          by_cases hempty : t.contexts.isEmpty
          · rw [if_pos hempty] at h ⊢
            rw [h.2]
          · rw [if_neg hempty] at h ⊢
            exact h
        simp only [Tracer.on, InstructionTracer.onExecutionStart, hnames]
        rfl
  nested t o ns o' h := by
    cases t with
    | histogram t => exact h.elim
    | instruction t => rfl
  noted t o ns n h hn := by
    cases t with
    | histogram t => exact h.elim
    | instruction t =>
        have hopcode := List.getElem?_eq_getElem hn
        have hgetD : o.code.getD n.offset 0 = o.code[n.offset] := by
          rw [List.getD_eq_getElem?_getD, hopcode, Option.getD_some]
        simp only [Tracer.on, InstructionTracer.onInstructionStart, Tracer.inside, hopcode,
          instructionRendering, hgetD, outputStack_eq]
        rfl
  closed t o ns result h := by
    cases t with
    | histogram t => exact h.elim
    | instruction t =>
        -- The names are dropped with the last context.
        have hnames : (if t.contexts.isEmpty then none else some names) = t.opcodeNames := by
          simp only [TracerKind.Names] at h
          by_cases hempty : t.contexts.isEmpty
          · rw [if_pos hempty] at h ⊢
            exact h.1.symm
          · rw [if_neg hempty] at h ⊢
            exact h.symm
        simp only [Tracer.on, InstructionTracer.onExecutionEnd, Tracer.inside, hnames]
        rfl

/-- A list of tracers. -/
theorem renders_tracers (ks : List TracerKind) :
    Renders (notify f) (Rendering.all (TracerKind.rendering f names) ks) InCode
      (fun ts o => List.Forall₂ (fun k t => k.Names f names t o) ks ts)
      (fun ts o ns => ts.map fun t => t.inside f names o ns) := by
  apply Renders.all
  intro k
  cases k with
  | histogram => exact renders_histogram f names
  | instruction => exact renders_instruction f names

/-- Tracers that are idle get their names from the next execution. -/
theorem names_create (ks : List TracerKind) (o : ExecutionStart) :
    List.Forall₂ (fun k t => k.Names f (f.namesTable o.rev) t o) ks (ks.map TracerKind.create) := by
  induction ks with
  | nil => exact .nil
  | cons k ks ih =>
      refine .cons ?_ ih
      cases k with
      | histogram => trivial
      | instruction => exact ⟨rfl, rfl⟩

end Laws

/-- Whatever is executed in an execution, tracers of any kinds in any order write the rendering of
it: the histogram tracer reports every execution at its end with the counts of its own instructions,
the instruction tracer writes a line for every start, instruction and end. They never look into an
empty stack of contexts or beyond a code, and come back to the contexts they had. -/
theorem tracers_render_executions (f : Formats) (names : NamesTable) {ks : List TracerKind}
    {ts : List Tracer} {o : ExecutionStart} {inner : Executions} (result : ExecutionResult)
    (hts : List.Forall₂ (fun k t => k.Names f names t o) ks ts)
    (hinner : inner.Fit InCode (InCode o)) :
    feed (notify f) ts (Spans.span o inner result .nil).events =
      some (ts, (Spans.span o inner result .nil).render
        (Rendering.all (TracerKind.rendering f names) ks) fun _ => []) :=
  (renders_tracers f names ks).feed_span hts hinner result _

/-! ## An execution in an execution -/

/-- The texts for the executions below. -/
def berlinFormats : Formats where
  namesTable _ opcode := if opcode = Opcode.call.toByte then some "CALL" else none
  revision _ := "Berlin"
  statusCode _ := "undefined instruction"
  hexByte b := String.ofList ((Nat.toDigits 16 (256 + b.toNat)).drop 1)
  hex bytes := String.join
    (bytes.map fun b => String.ofList ((Nat.toDigits 16 (256 + b.toNat)).drop 1))
  hexWord x := String.ofList (Nat.toDigits 16 x.toNat)

/-- The start of an execution of a CALL. -/
def callStart : ExecutionStart := ⟨.berlin, { gas := 1000 }, [Opcode.call.toByte]⟩

/-- The called code is an undefined instruction. -/
def calledCode : Executions :=
  .note ⟨0, 1000, List.replicate 7 0, 0⟩
    (.span ⟨.berlin, { depth := 1, gas := 100 }, [0xef]⟩ (.note ⟨0, 100, [], 0⟩ .nil)
      ⟨.undefinedInstruction, 0, []⟩ .nil)

theorem fit_calledCode : calledCode.Fit InCode (InCode callStart) :=
  ⟨Nat.one_pos, ⟨Nat.one_pos, trivial⟩, trivial⟩

theorem tracers_render_executions_calledCode :
    feed (notify berlinFormats) ([TracerKind.histogram, .instruction].map TracerKind.create)
        (Spans.span callStart calledCode ⟨.success, 200, []⟩ .nil).events =
      some ([TracerKind.histogram, .instruction].map TracerKind.create,
        (Spans.span callStart calledCode ⟨.success, 200, []⟩ .nil).render
          (Rendering.all (TracerKind.rendering berlinFormats (berlinFormats.namesTable .berlin))
            [.histogram, .instruction]) fun _ => []) :=
  tracers_render_executions berlinFormats _ _ (names_create berlinFormats _ callStart)
    fit_calledCode

/-- The report of the called code comes first. -/
example :
    (Spans.span callStart calledCode ⟨.success, 200, []⟩ .nil).render
        (histogramRendering berlinFormats) (fun _ => "") =
      ["", "", "", "", "--- # HISTOGRAM depth=1\nopcode,count\n0xef,1\n",
        "--- # HISTOGRAM depth=0\nopcode,count\nCALL,1\n"] := by
  decide +kernel

end Ivmone
