import Reckoner.Proofs.StrictReach

namespace Reckoner

def Instruction.value? : Instruction → Option Binary64
  | operand value => some value
  | binary _ | unary _ => none

def Pending.instruction? : Pending → Option Instruction
  | operator symbol => some (.binary symbol)
  | function name => some (.unary name)
  | group _ => none

/-- The instruction that a token asks for. Parentheses, stray marks and unknown names ask for none. -/
def Token.instruction? (token : Token) : Option Instruction :=
  match token.kind with
  | .number value => some (.operand value)
  | .identifier name =>
    if name ∈ piSpellings then some (.operand .pi) else (UnaryFunction.ofName? name).map fun f => .unary f.name
  | .operator symbol => some (.binary symbol)
  | .openParen | .closeParen | .comma _ | .period _ => none

/-- The program that a conversion ends with if nothing more comes: all that waits leaves, groups without a trace. -/
def line (output : Program) (pending : List Pending) : Program :=
  output.reverse ++ pending.filterMap Pending.instruction?

section Line

variable {output left : Program} {pending : List Pending}

theorem line_leave {entry : Pending} {instruction : Instruction} (leaves : entry.instruction? = some instruction)
    (output : Program) (pending : List Pending) : line (instruction :: output) pending = line output (entry :: pending) := by
  simp [line, leaves]

theorem line_emit (ops : List Operator) (output : Program) (rest : List Pending) :
    line (emit ops output) rest = line output (waiting ops ++ rest) := by
  induction ops generalizing output with
  | nil => rfl
  | cons op ops ih =>
    rw [emit_cons, ih]
    exact line_leave rfl output (waiting ops ++ rest)

/-- What leaves early leaves in the order in which it would have left in the end. -/
theorem line_release {symbol : String} {rest : List Pending}
    (released : release symbol output pending = .ok (left, rest)) : line left rest = line output pending := by
  obtain ⟨ops, run, emitted, -⟩ := exists_released released
  rw [run, emitted, line_emit]

theorem line_closeGroup {rest : Option (List Pending)} (closed : closeGroup output pending = (left, rest)) :
    line left (rest.getD []) = line output pending := by
  induction pending generalizing output with
  | nil =>
    cases closed
    rfl
  | cons entry pending ih =>
    cases entry with
    | operator | function => exact (ih closed).trans (line_leave rfl output pending)
    | group position =>
      cases closed
      rfl

theorem line_applyToGroup (output : Program) (pending : List Pending) :
    line (applyToGroup output pending).1 (applyToGroup output pending).2 = line output pending := by
  unfold applyToGroup
  split
  · exact line_leave rfl ..
  · rfl

theorem finish_lenient (output : Program) (pending : List Pending) :
    finish false output pending = .ok (line output pending) := by
  induction pending generalizing output with
  | nil => simp [finish, line]
  | cons entry pending ih =>
    cases entry with
    | operator | function =>
      rw [finish, ih]
      exact congrArg Except.ok (line_leave rfl output pending)
    | group position => exact ih output

end Line

def Conversion.line (state : Conversion) : Program := Reckoner.line state.output state.pending

theorem convert_lenient (tokens : List Token) :
    convert false tokens = (Conversion.start.steps false tokens).map Conversion.line := by
  cases run : Conversion.start.steps false tokens with
  | error error => exact convert_of_steps_error run
  | ok last => exact (convert_of_steps run (Or.inl rfl)).trans (finish_lenient last.output last.pending)

theorem instruction_of_isPiName {name : String} {position : Int} (isPi : isPiName name = true) :
    Token.instruction? ⟨.identifier name, position⟩ = some (.operand .pi) := if_pos (isPiName_iff.mp isPi)

theorem instruction_of_function (f : UnaryFunction) (position : Int) :
    Token.instruction? ⟨.identifier f.name, position⟩ = some (.unary f.name) := by
  have noPi : f.name ∉ piSpellings := by
    rw [← isPiName_iff, isPiName_name]
    exact Bool.false_ne_true
  simp [Token.instruction?, noPi, UnaryFunction.ofName?_name]

theorem instruction_of_unknown {name : String} {position : Int} (noPi : isPiName name = false)
    (noFunction : UnaryFunction.ofName? name = none) : Token.instruction? ⟨.identifier name, position⟩ = none := by
  have noSpelling : name ∉ piSpellings := by
    rw [← isPiName_iff, noPi]
    exact Bool.false_ne_true
  simp [Token.instruction?, noSpelling, noFunction]

theorem value_of_pending {pending : List Pending} :
    ∀ instruction ∈ pending.filterMap Pending.instruction?, instruction.value? = none := by
  intro instruction member
  obtain ⟨entry, _, asked⟩ := List.mem_filterMap.mp member
  cases entry <;> cases asked <;> rfl

/-- One program is the other with an instruction more, if any, behind which no operand stands. -/
def GrowsBy (program : Program) (instruction : Option Instruction) (longer : Program) : Prop :=
  ∃ early late, program = early ++ late ∧ longer = early ++ (instruction.toList ++ late) ∧
    ∀ other ∈ late, other.value? = none

theorem GrowsBy.same (program : Program) : GrowsBy program none program := ⟨program, [], by simp, by simp, by simp⟩

theorem GrowsBy.eq_of_none {program longer : Program} (grows : GrowsBy program none longer) : longer = program := by
  obtain ⟨early, late, rfl, rfl, -⟩ := grows
  rfl

/-- What goes behind the output stands before nothing but what waits. -/
theorem GrowsBy.behind (output : Program) (instruction : Instruction) (pending : List Pending) :
    GrowsBy (line output pending) (some instruction) (line (instruction :: output) pending) :=
  ⟨output.reverse, pending.filterMap Pending.instruction?, rfl, by simp [line], value_of_pending⟩

/-- A token puts the instruction that it asks for into the line, and leaves the line as it is otherwise, also where it
makes some of what waits leave. -/
theorem Moves.grows {strict : Bool} {next : Option TokenKind} {state after : Conversion} {token : Token}
    (move : Moves strict next state token after) : GrowsBy state.line token.instruction? after.line := by
  obtain ⟨output, pending, expects⟩ := state
  cases move with
  | number _ => exact .behind output _ pending
  | constant isPi _ =>
    rw [instruction_of_isPiName isPi]
    exact .behind output _ pending
  | @function f position _ _ =>
    rw [instruction_of_function]
    have onTop : line (.unary f.name :: output) pending = line output (.function f.name :: pending) := line_leave rfl ..
    have grows := GrowsBy.behind output (.unary f.name) pending
    rwa [onTop] at grows
  | @operator symbol position left rest _ released =>
    have onTop : line (.binary symbol :: left) rest = line left (.operator symbol :: rest) := line_leave rfl ..
    have grows := GrowsBy.behind left (.binary symbol) rest
    rwa [onTop, line_release released] at grows
  | unknown _ noPi noFunction =>
    rw [instruction_of_unknown noPi noFunction]
    exact .same _
  | @closeParen position left rest _ closed =>
    have same : line (applyToGroup left rest).1 (applyToGroup left rest).2 = line output pending :=
      (line_applyToGroup left rest).trans (line_closeGroup closed)
    rw [Conversion.line, Conversion.line, same]
    exact .same _
  | cut _ closed =>
    have same : line _ [] = line output pending := line_closeGroup closed
    rw [Conversion.line, Conversion.line, same]
    exact .same _
  | openParen | comma | period => exact .same (line output pending)

/-- Programs that grow by what one token after another asks for. An operand goes behind all operands, and nothing goes
before an operand that is there. -/
inductive Inserted : List Token → Program → Prop
  | start : Inserted [] []
  | insert {tokens : List Token} {token : Token} {program longer : Program} : Inserted tokens program →
      GrowsBy program token.instruction? longer → Inserted (tokens ++ [token]) longer

section Runs

variable {strict : Bool} {tokens before after : List Token} {state : Conversion}

theorem Inserted.at_start : Inserted [] Conversion.start.line := .start

/-- Between any two tokens the line holds what the tokens taken in ask for. -/
theorem Conversion.Reach.inserted (reach : Reach strict tokens before after state) : Inserted before state.line := by
  induction reach with
  | start => exact .at_start
  | next _ taken ih => exact .insert ih (moves_of_step taken).grows

end Runs

end Reckoner
