import Reckoner.Conversion
import Reckoner.Proofs.Results

namespace Reckoner

@[simp]
theorem ok_bind {α β : Type} (value : α) (next : α → Except ConversionError β) :
    (.ok value >>= next) = next value := rfl

@[simp]
theorem error_bind {α β : Type} (error : ConversionError) (next : α → Except ConversionError β) :
    (.error error >>= next) = .error error := rfl

@[simp]
theorem demand_true (strict : Bool) (complaint : Complaint) (position : Int) :
    demand strict true complaint position = .ok () := by
  simp [demand]

@[simp]
theorem demand_lenient (holds : Bool) (complaint : Complaint) (position : Int) :
    demand false holds complaint position = .ok () := rfl

@[simp]
theorem demand_strict_false (complaint : Complaint) (position : Int) :
    demand true false complaint position = .error (.refused complaint position) := rfl

@[simp]
theorem lookUp_symbol (op : Operator) : lookUp op.symbol = .ok op := by simp [lookUp, Operator.ofSymbol?_symbol]

theorem symbol_of_lookUp {symbol : String} {op : Operator} (found : lookUp symbol = .ok op) : symbol = op.symbol := by
  unfold lookUp at found
  split at found
  · rename_i known
    cases found
    exact Operator.symbol_of_ofSymbol? known
  · cases found

theorem release_operator (current op : Operator) (output : Program) (pending : List Pending) :
    release current.symbol output (.operator op.symbol :: pending) =
      if current.yieldsTo op then release current.symbol (.binary op.symbol :: output) pending
      else .ok (output, .operator op.symbol :: pending) := by
  rw [release, lookUp_symbol, lookUp_symbol]
  rfl

def waiting (ops : List Operator) : List Pending := ops.map fun op => .operator op.symbol

/-- The instructions of waiting operators in front of a program, the latest first. -/
def emit (ops : List Operator) (output : Program) : Program :=
  (ops.map fun op => Instruction.binary op.symbol).reverse ++ output

@[simp]
theorem waiting_nil : waiting [] = [] := rfl

@[simp]
theorem waiting_cons (op : Operator) (ops : List Operator) :
    waiting (op :: ops) = .operator op.symbol :: waiting ops := rfl

@[simp]
theorem waiting_append (ops more : List Operator) : waiting (ops ++ more) = waiting ops ++ waiting more := by
  simp [waiting]

@[simp]
theorem emit_nil (output : Program) : emit [] output = output := rfl

theorem emit_cons (op : Operator) (ops : List Operator) (output : Program) :
    emit (op :: ops) output = emit ops (.binary op.symbol :: output) := by
  simp [emit]

theorem emit_append (ops more : List Operator) (output : Program) :
    emit (ops ++ more) output = emit more (emit ops output) := by
  simp [emit]

theorem release_waiting {current : Operator} {ops : List Operator} (yields : ∀ op ∈ ops, current.yieldsTo op = true)
    (output : Program) (pending : List Pending) :
    release current.symbol output (waiting ops ++ pending) = release current.symbol (emit ops output) pending := by
  induction ops generalizing output with
  | nil => rfl
  | cons op ops ih =>
    rw [emit_cons, ← ih (fun other member => yields other (List.mem_cons_of_mem _ member)), waiting_cons,
      List.cons_append, release_operator, if_pos (yields op List.mem_cons_self)]

/-- What leaves before an operator is a run of operators. It ends at one that the operator does not let go, at a function,
at a group or at the bottom. -/
theorem exists_released {symbol : String} {output left : Program} {pending rest : List Pending}
    (released : release symbol output pending = .ok (left, rest)) :
    ∃ ops : List Operator, pending = waiting ops ++ rest ∧ left = emit ops output ∧
      ∀ (current earlier : Operator) (below : List Pending), current.symbol = symbol →
        rest = .operator earlier.symbol :: below → current.yieldsTo earlier = false := by
  induction pending generalizing output with
  | nil =>
    cases released
    exact ⟨[], rfl, rfl, nofun⟩
  | cons entry pending ih =>
    cases entry with
    | operator earlier =>
      obtain ⟨current, found, chosen⟩ := bind_eq_ok released
      obtain ⟨op, known, decided⟩ := bind_eq_ok chosen
      obtain rfl := symbol_of_lookUp known
      split at decided
      · obtain ⟨ops, run, emitted, stops⟩ := ih decided
        exact ⟨op :: ops, by rw [run]; rfl, by rw [emitted, emit_cons], stops⟩
      · rename_i stays
        cases decided
        refine ⟨[], rfl, rfl, ?_⟩
        rintro other earlier _ rfl top
        cases (lookUp_symbol other).symm.trans found
        have same : op.symbol = earlier.symbol := Pending.operator.inj (List.cons.inj top).1
        rw [same, lookUp_symbol] at known
        cases known
        simpa using stays
    | function | group =>
      cases released
      exact ⟨[], rfl, rfl, nofun⟩

theorem closeGroup_waiting (ops : List Operator) (output : Program) (pending : List Pending) :
    closeGroup output (waiting ops ++ pending) = closeGroup (emit ops output) pending := by
  induction ops generalizing output with
  | nil => rfl
  | cons op ops ih =>
    rw [emit_cons, ← ih]
    rfl

theorem suffix_of_closeGroup {output left : Program} {pending rest : List Pending}
    (shut : closeGroup output pending = (left, some rest)) : ∃ position, .group position :: rest <:+ pending := by
  induction pending generalizing output with
  | nil => cases shut
  | cons entry pending ih =>
    cases entry with
    | operator | function =>
      obtain ⟨position, inside⟩ := ih shut
      exact ⟨position, inside.trans (List.suffix_cons _ pending)⟩
    | group position =>
      cases shut
      exact ⟨position, List.suffix_rfl⟩

theorem suffix_applyToGroup (output : Program) (pending : List Pending) :
    (applyToGroup output pending).2 <:+ pending := by
  match pending with
  | .function name :: pending => exact List.suffix_cons _ pending
  | [] | .operator _ :: _ | .group _ :: _ => exact List.suffix_rfl

/-- What waits once a group is closed, and a function before it applied, waited below the group. -/
theorem suffix_of_close {output left : Program} {pending rest : List Pending}
    (shut : closeGroup output pending = (left, some rest)) : (applyToGroup left rest).2 <:+ pending := by
  obtain ⟨position, inside⟩ := suffix_of_closeGroup shut
  have behind : rest <:+ pending := (List.suffix_cons (.group position) rest).trans inside
  exact (suffix_applyToGroup left rest).trans behind

theorem finish_waiting (strict : Bool) (ops : List Operator) (output : Program) (pending : List Pending) :
    finish strict output (waiting ops ++ pending) = finish strict (emit ops output) pending := by
  induction ops generalizing output with
  | nil => rfl
  | cons op ops ih =>
    rw [emit_cons, ← ih]
    rfl

theorem isPiName_name (f : UnaryFunction) : isPiName f.name = false := by cases f <;> decide

/-- A name is that of the constant, that of a function, or unknown. -/
theorem name_cases (name : String) : isPiName name = true ∨ (∃ f : UnaryFunction, name = f.name) ∨
    isPiName name = false ∧ UnaryFunction.ofName? name = none := by
  cases isPi : isPiName name with
  | true => exact Or.inl rfl
  | false =>
    cases found : UnaryFunction.ofName? name with
    | none => exact Or.inr (Or.inr ⟨rfl, rfl⟩)
    | some f => exact Or.inr (Or.inl ⟨f, UnaryFunction.name_of_ofName? found⟩)

namespace Conversion

section Names

variable {strict : Bool} {next : Option TokenKind} {state : Conversion} {name : String} {position : Int}

theorem step_constant (isPi : isPiName name = true) :
    state.step strict next ⟨.identifier name, position⟩ =
      demand strict state.expectsOperand (.nameAfterOperand name) position >>= fun _ => .ok (state.operand .pi) :=
  if_pos isPi

theorem step_function {f : UnaryFunction} :
    state.step strict next ⟨.identifier f.name, position⟩ =
      demand strict state.expectsOperand (.nameAfterOperand f.name) position >>= fun _ =>
        demand strict (next == some .openParen) (.functionWithoutGroup f.name) position >>= fun _ =>
          .ok { state with pending := .function f.name :: state.pending } := by
  have isFunction : (UnaryFunction.ofName? f.name).isSome = true := by simp [UnaryFunction.ofName?_name]
  simp only [step, Conversion.name, isPiName_name, Bool.false_eq_true, if_false, isFunction, if_true]
  rfl

theorem step_unknown (noPi : isPiName name = false) (noFunction : UnaryFunction.ofName? name = none) :
    state.step strict next ⟨.identifier name, position⟩ =
      demand strict false (.unknownName name) position >>= fun _ => .ok state := by
  simp only [step, Conversion.name, noPi, Bool.false_eq_true, if_false, noFunction, Option.isSome_none]
  rfl

end Names

theorem steps_of_step {strict : Bool} {state after : Conversion} {token : Token} {tokens : List Token}
    (taken : step strict (tokens.head?.map Token.kind) state token = .ok after) :
    steps strict state (token :: tokens) = steps strict after tokens := by
  rw [steps, taken]

end Conversion

section Convert

variable {strict : Bool} {tokens : List Token} {state : Conversion} {error : ConversionError}

theorem convert_of_steps_error (run : Conversion.start.steps strict tokens = .error error) :
    convert strict tokens = .error error := by
  rw [convert, run, error_bind]

/-- Without a demand at its end a conversion ends with all that still waits. -/
theorem convert_of_steps (run : Conversion.start.steps strict tokens = .ok state)
    (filled : strict = false ∨ state.expectsOperand = false) :
    convert strict tokens = finish strict state.output state.pending := by
  have met (position : Int) : demand strict (!state.expectsOperand) .endsWithoutOperand position = .ok () := by
    rcases filled with rfl | filled
    · rfl
    · rw [filled, Bool.not_false, demand_true]
  rw [convert, run, ok_bind]
  cases tokens.getLast? with
  | none => rfl
  | some last =>
    simp only [met]
    rfl

theorem convert_of_steps_expecting {last : Token} (run : Conversion.start.steps true tokens = .ok state)
    (atLast : tokens.getLast? = some last) (expecting : state.expectsOperand = true) :
    convert true tokens = .error (.refused .endsWithoutOperand last.position) := by
  rw [convert, run, ok_bind, atLast]
  simp only [expecting, Bool.not_true, demand_strict_false]
  rfl

end Convert

end Reckoner
