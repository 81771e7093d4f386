import Reckoner.Proofs.Expression
import Reckoner.Proofs.Literals
import Reckoner.Proofs.NumberReading

namespace Reckoner

namespace Decimal

variable (d : Decimal)

theorem isDigit_of_mem_padded (c : Char) (member : c ∈ if d.split.2.isEmpty then ['0'] else d.split.2) :
    c.isDigit = true := by
  split at member
  · rw [List.mem_singleton.mp member]
    rfl
  · exact isDigit_of_mem_split (Or.inr member)

/-- A decimal as a numeral with all digits in their places and at least one place behind the point. -/
def pointed : Numeral :=
  { d.positional with
    fraction := some (if d.split.2.isEmpty then ['0'] else d.split.2)
    fraction_digits := d.isDigit_of_mem_padded
    has_digit := fun empty => absurd empty d.split_ne_nil }

theorem pointed_value : d.pointed.decimal.value = d.value := by
  have same : fractionValue (d.pointed.fraction.getD []) = fractionValue (d.positional.fraction.getD []) := by
    rw [positional_fraction, pointed, Option.getD_some]
    split
    · rename_i whole
      rw [List.isEmpty_iff.mp whole]
      simp [fractionValue]
    · rfl
  rw [← d.positional_value, Numeral.value_decimal, Numeral.value_decimal, Numeral.exact, Numeral.exact, same]
  rfl

theorem finiteText_cases : finiteText d = d.pointed.text ∨ finiteText d = scientificText false d := by
  rw [finiteText]
  split
  · exact Or.inl rfl
  · refine Or.inr ?_
    unfold scientificText
    split <;> simp_all

theorem readUnsigned?_finiteText : readUnsigned? (finiteText d) = some d.value := by
  rcases d.finiteText_cases with pointed | scientific
  · have read := readUnsigned?_append d.pointed (show EndsNumeral [] from nofun)
    rw [List.append_nil, pointed_value] at read
    rw [pointed, read, readExponent?, Option.map_some, zpow_zero, mul_one]
  · rw [scientific, readUnsigned?_scientificText]

end Decimal

/-- The text of a magnitude in records. -/
def Magnitude.text (m : Magnitude) : List Char := if m.rank = 0 then ['0', '.', '0'] else finiteText m.shortest

/-- The text of a magnitude is read as a decimal that stands for no other magnitude. -/
theorem Magnitude.exists_readUnsigned? (m : Magnitude) :
    ∃ d : Decimal, readUnsigned? m.text = some d.value ∧ d.rank = m.rank := by
  rw [text]
  split
  · rename_i zero
    refine ⟨⟨0, -1⟩, ?_, ?_⟩
    · decide +kernel
    · rw [zero]
      decide +kernel
  · rename_i some_rank
    exact ⟨m.shortest, m.shortest.readUnsigned?_finiteText, rank_shortest some_rank⟩

theorem Magnitude.text_injective : Function.Injective Magnitude.text := by
  intro m other same
  obtain ⟨d, read, rank⟩ := m.exists_readUnsigned?
  obtain ⟨e, readOther, rankOther⟩ := other.exists_readUnsigned?
  rw [same, readOther] at read
  have ranks : m.rank = other.rank := by rw [← rank, ← rankOther, Decimal.rank_congr (Option.some.inj read)]
  cases m
  cases other
  cases ranks
  rfl

theorem Magnitude.text_unsigned (m : Magnitude) : m.text.head? ≠ some '-' := by
  obtain ⟨d, read, -⟩ := m.exists_readUnsigned?
  intro minus
  obtain ⟨rest, spelled⟩ := List.head?_eq_some_iff.mp minus
  -- A sign is no digit, so nothing would have been read.
  have unread : readUnsigned? ('-' :: rest) = none := rfl
  rw [spelled, unread] at read
  cases read

/-- The sign is told apart from text that does not begin with one. -/
theorem signedText_injective {negative other : Bool} {text more : List Char} (unsigned : text.head? ≠ some '-')
    (unsignedMore : more.head? ≠ some '-') (same : signedText negative text = signedText other more) :
    negative = other ∧ text = more := by
  have letters := String.ofList_inj.mp same
  cases negative with
  | false =>
    cases other with
    | false => exact ⟨rfl, letters⟩
    | true => exact absurd (congrArg List.head? letters) unsigned
  | true =>
    cases other with
    | false => exact absurd (congrArg List.head? letters).symm unsignedMore
    | true => exact ⟨rfl, (List.cons.inj letters).2⟩

namespace Binary64

theorem text_finite (negative : Bool) (m : Magnitude) : (finite negative m).text = signedText negative m.text := rfl

theorem readNumber?_text_finite (negative : Bool) (m : Magnitude) :
    (readNumber? (finite negative m).text).isSome = true := by
  obtain ⟨d, read, -⟩ := m.exists_readUnsigned?
  rw [text_finite, readNumber?_signedText negative read]
  rfl

/-- Nothing but a finite double has a text that is read as a number. -/
theorem text_ne_of_unread {word : String} (unread : readNumber? word = none) (negative : Bool) (m : Magnitude) :
    (finite negative m).text ≠ word := by
  intro same
  have read := readNumber?_text_finite negative m
  rw [same, unread] at read
  cases read

theorem text_injective : Function.Injective text := by
  have unreadNaN : readNumber? nan.text = none := by decide +kernel
  have unreadInfinity (negative : Bool) : readNumber? (infinity negative).text = none := by
    cases negative <;> decide +kernel
  intro x y same
  cases x with
  | nan =>
    cases y with
    | nan => rfl
    | infinity negative => cases negative <;> exact absurd same (by decide)
    | finite negative m => exact absurd same.symm (text_ne_of_unread unreadNaN negative m)
  | infinity negative =>
    cases y with
    | nan => cases negative <;> exact absurd same (by decide)
    | infinity other => cases negative <;> cases other <;> first | rfl | exact absurd same (by decide)
    | finite other m => exact absurd same.symm (text_ne_of_unread (unreadInfinity negative) other m)
  | finite negative m =>
    cases y with
    | nan => exact absurd same (text_ne_of_unread unreadNaN negative m)
    | infinity other => exact absurd same (text_ne_of_unread (unreadInfinity other) negative m)
    | finite other n =>
      obtain ⟨rfl, letters⟩ := signedText_injective m.text_unsigned n.text_unsigned same
      rw [Magnitude.text_injective letters]

end Binary64

theorem Operator.symbol_ne_name (op : Operator) (f : UnaryFunction) : op.symbol ≠ f.name := by
  cases op <;> cases f <;> decide

theorem Binary64.text_ne_symbol (x : Binary64) (op : Operator) : x.text ≠ op.symbol := by
  cases x with
  | nan => cases op <;> decide
  | infinity negative => cases negative <;> cases op <;> decide
  | finite negative m =>
    have unread : readNumber? op.symbol = none := by cases op <;> decide +kernel
    exact text_ne_of_unread unread negative m

theorem Binary64.text_ne_name (x : Binary64) (f : UnaryFunction) : x.text ≠ f.name := by
  cases x with
  | nan => cases f <;> decide
  | infinity negative => cases negative <;> cases f <;> decide
  | finite negative m =>
    have unread : readNumber? f.name = none := by cases f <;> decide +kernel
    exact text_ne_of_unread unread negative m

namespace Instruction

variable {instruction other : Instruction}

/-- The text of an instruction tells what it is. -/
theorem eq_of_text (known : instruction.IsKnown) (knownOther : other.IsKnown) (same : instruction.text = other.text) :
    instruction = other := by
  cases instruction with
  | operand x =>
    cases other with
    | operand y => exact congrArg operand (Binary64.text_injective same)
    | binary symbol =>
      obtain ⟨op, found⟩ := knownOther
      obtain rfl := Operator.symbol_of_ofSymbol? found
      exact absurd same (x.text_ne_symbol op)
    | unary name =>
      obtain ⟨f, found⟩ := knownOther
      obtain rfl := UnaryFunction.name_of_ofName? found
      exact absurd same (x.text_ne_name f)
  | binary symbol =>
    obtain ⟨op, found⟩ := known
    obtain rfl := Operator.symbol_of_ofSymbol? found
    cases other with
    | operand y => exact absurd same.symm (y.text_ne_symbol op)
    | binary symbol => exact congrArg binary same
    | unary name =>
      obtain ⟨f, found⟩ := knownOther
      obtain rfl := UnaryFunction.name_of_ofName? found
      exact absurd same (op.symbol_ne_name f)
  | unary name =>
    obtain ⟨f, found⟩ := known
    obtain rfl := UnaryFunction.name_of_ofName? found
    cases other with
    | operand y => exact absurd same.symm (y.text_ne_name f)
    | binary symbol =>
      obtain ⟨op, found⟩ := knownOther
      obtain rfl := Operator.symbol_of_ofSymbol? found
      exact absurd same.symm (op.symbol_ne_name f)
    | unary name => exact congrArg unary same

/-- A text of an instruction is a word: there is something, and no space in it. -/
theorem text_isWord (known : instruction.IsKnown) : instruction.text.toList ≠ [] ∧ ' ' ∉ instruction.text.toList := by
  cases instruction with
  | operand x =>
    cases x with
    | nan => decide
    | infinity negative => cases negative <;> decide
    | finite negative m =>
      have unread : readNumber? "" = none := by decide +kernel
      have filled := Binary64.text_ne_of_unread unread negative m
      refine ⟨fun nothing => filled (String.toList_eq_nil_iff.mp nothing), fun space => ?_⟩
      cases isFigure_of_mem_text space
  | binary symbol =>
    obtain ⟨op, found⟩ := known
    obtain rfl := Operator.symbol_of_ofSymbol? found
    cases op <;> decide
  | unary name =>
    obtain ⟨f, found⟩ := known
    obtain rfl := UnaryFunction.name_of_ofName? found
    cases f <;> decide

end Instruction

namespace Program

variable {program other : Program}

theorem toList_text (program : Program) :
    program.text.toList = [' '].intercalate (program.map fun instruction => instruction.text.toList) := by
  rw [text, String.toList_intercalate, List.map_map]
  rfl

theorem splitOn_text (known : ∀ instruction ∈ program, instruction.IsKnown) (filled : program ≠ []) :
    program.text.toList.splitOn ' ' = program.map fun instruction => instruction.text.toList := by
  have noSpace : ∀ word ∈ program.map (fun instruction => instruction.text.toList), ' ' ∉ word := by
    intro word member
    obtain ⟨instruction, inside, rfl⟩ := List.mem_map.mp member
    exact (instruction.text_isWord (known instruction inside)).2
  rw [toList_text, List.splitOn_intercalate ' ' noSpace]
  simpa using filled

/-- The text of a program is not empty unless the program is. -/
theorem text_ne_empty (known : ∀ instruction ∈ program, instruction.IsKnown) (filled : program ≠ []) :
    program.text ≠ "" := by
  intro nothing
  have words := splitOn_text known filled
  rw [nothing] at words
  cases program with
  | nil => exact filled rfl
  | cons instruction more =>
    have empty : instruction.text.toList = [] := (List.cons.inj words).1.symm
    exact (instruction.text_isWord (known instruction List.mem_cons_self)).1 empty

theorem eq_of_words (known : ∀ instruction ∈ program, instruction.IsKnown)
    (knownOther : ∀ instruction ∈ other, instruction.IsKnown)
    (same : (program.map fun instruction => instruction.text.toList) =
      other.map fun instruction => instruction.text.toList) : program = other := by
  induction program generalizing other with
  | nil => exact (List.map_eq_nil_iff.mp same.symm).symm
  | cons instruction program ih =>
    cases other with
    | nil => cases same
    | cons next other =>
      obtain ⟨first, rest⟩ := List.cons.inj same
      have here := Instruction.eq_of_text (known _ List.mem_cons_self) (knownOther _ List.mem_cons_self)
        (String.toList_inj.mp first)
      have behind := ih (fun i member => known i (List.mem_cons_of_mem _ member))
        (fun i member => knownOther i (List.mem_cons_of_mem _ member)) rest
      rw [here, behind]

/-- The text of a program of known instructions tells all of them and their order: every double in it, zero of either
sign among them, and a minus apart from a sign. -/
theorem text_eq_iff (known : ∀ instruction ∈ program, instruction.IsKnown)
    (knownOther : ∀ instruction ∈ other, instruction.IsKnown) : program.text = other.text ↔ program = other := by
  refine ⟨fun same => ?_, congrArg text⟩
  by_cases empty : program = []
  · subst empty
    by_cases emptyOther : other = []
    · exact emptyOther.symm
    · exact absurd same.symm (text_ne_empty knownOther emptyOther)
  · by_cases emptyOther : other = []
    · subst emptyOther
      exact absurd same (text_ne_empty known empty)
    · have words := splitOn_text known empty
      rw [same, splitOn_text knownOther emptyOther] at words
      exact eq_of_words known knownOther words.symm

/-- The least double is subtracted, or its negative is an operand. -/
theorem text_eq_iff_minus :
    (∀ instruction ∈ ([.operand (.zero true), .operand (.finite false ⟨1, by decide⟩), .binary "-"] : Program),
        instruction.IsKnown) ∧
      (∀ instruction ∈ ([.operand (.zero true), .operand (.finite true ⟨1, by decide⟩)] : Program),
        instruction.IsKnown) ∧
      Program.text [.operand (.zero true), .operand (.finite false ⟨1, by decide⟩), .binary "-"] ≠
        Program.text [.operand (.zero true), .operand (.finite true ⟨1, by decide⟩)] := by
  have difference : ∀ instruction ∈
      ([.operand (.zero true), .operand (.finite false ⟨1, by decide⟩), .binary "-"] : Program),
      instruction.IsKnown := by
    simp only [List.forall_mem_cons, List.not_mem_nil, false_implies, implies_true, and_true]
    exact ⟨trivial, trivial, .sub, rfl⟩
  have operands : ∀ instruction ∈ ([.operand (.zero true), .operand (.finite true ⟨1, by decide⟩)] : Program),
      instruction.IsKnown := by
    simp only [List.forall_mem_cons, List.not_mem_nil, false_implies, implies_true, and_true]
    exact ⟨trivial, trivial⟩
  refine ⟨difference, operands, fun same => ?_⟩
  cases (text_eq_iff difference operands).mp same

end Program

end Reckoner
