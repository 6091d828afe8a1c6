import RamOverlay.Thumb2.Instruction

/-!
# Size oracles

A size oracle knows how many bytes the encoding of an instruction takes. It runs in a monad of its
own, so that it may consult a cache or an assembler; `Instruction.sizeQuery?` is what it is asked.
-/

namespace RamOverlay

/-- What an oracle is asked: an instruction, and the label that it refers to. -/
structure SizeQuery where
  text : String
  /-- The label that a branch or a literal load refers to. -/
  target? : Option String := none
  deriving DecidableEq, Repr

/-- An instruction without a size, with the reason. -/
structure OracleError where
  insn : String
  reason : String
  deriving DecidableEq, Repr

def OracleError.message (e : OracleError) : String :=
  "size oracle failed for `" ++ e.insn ++ "`: " ++ e.reason

/-- A source of sizes in bytes. A failure keeps the state of the monad. -/
abbrev SizeOracle (m : Type → Type) := SizeQuery → ExceptT OracleError m Nat

/-- The symbol of a literal reference, without an offset behind a sign and without blanks. -/
def symbolOf (reference : String) : String :=
  let cs := Text.trim reference.toList
  String.ofList (Text.trim (cs.takeWhile fun c => c != '+' && c != '-'))

namespace Instruction

/-- Whether the operands refer to a literal relative to the program counter. -/
def isLiteralForm (insn : Instruction) : Bool :=
  (Thumb2.literalLoads.contains insn.strippedOperator || insn.isAddressGenerator)
    && !Text.mentions "[" insn.operands && !Text.mentions "=" insn.operands

/-- The symbol behind the first comma, unless it is empty. -/
def literalSymbol? (insn : Instruction) : Option String :=
  match Text.piecesOf ',' insn.operands with
  | _ :: second :: _ => some (symbolOf second) |>.filter (· ≠ "")
  | _ => none

/-- What a size oracle is asked about an instruction; nothing for a label. -/
def sizeQuery? (insn : Instruction) : Option SizeQuery :=
  if insn.operator.isEmpty then none
  else
    let op := insn.strippedOperator
    some {
      text := if insn.operands.isEmpty then op else op ++ " " ++ insn.operands
      target? :=
        if insn.isLiteralForm then insn.literalSymbol?
        else if insn.isBranch then insn.destination.label?
        else none }

/-- The bytes of an instruction; a label takes none. -/
def size {m : Type → Type} [Monad m] (insn : Instruction) (oracle : SizeOracle m) :
    ExceptT OracleError m Nat :=
  match insn.sizeQuery? with
  | none => pure 0
  | some query => oracle query

end Instruction

end RamOverlay
