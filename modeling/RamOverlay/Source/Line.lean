import RamOverlay.Event

/-!
# Lines of assembler source

What one line of compiler-generated assembler text means: a label, an instruction, or nothing that
takes part in the flow of control. Beside that, a line may declare a function or hold metadata that
a moved block would make wrong.
-/

namespace RamOverlay.Source

/-- What a line of a source file is to the parser. -/
inductive Line where
  /-- A label; `followed` tells whether more text stands behind its colon. -/
  | label (name : List Char) (followed : Bool)
  /-- An instruction, its mnemonic in lower case and its operands without a comment. -/
  | instruction (operator operands : List Char)
  | ignored
  | unmatched
  deriving DecidableEq, Repr

def isMnemonicChar (c : Char) : Bool := c.isAlphanum || c == '.'

/-- Reads a text without blanks at its ends as an instruction. The operands end before a semicolon
or an at sign. -/
def Line.ofStatement (cs : List Char) : Line :=
  match cs.takeWhile isMnemonicChar with
  | [] => .unmatched
  | operator =>
    let operands := (cs.dropWhile isMnemonicChar).takeWhile fun c => c != ';' && c != '@'
    .instruction (operator.map Char.toLower) (Text.trim operands)

/-- The meaning of a line. A line with exactly one colon is a label if no space or tab stands inside
the text before it. -/
def Line.classify (cs : List Char) : Line :=
  let trimmed := Text.trim cs
  let statement :=
    match trimmed with
    | '.' :: _ | '@' :: _ => .ignored
    | _ => .ofStatement trimmed
  if trimmed = [] then .ignored
  else
    match Text.pieces ':' cs with
    | [head, tail] =>
      let name := Text.trim head
      if name.any fun c => c == ' ' || c == '\t' then statement
      else .label name (Text.trim tail ≠ [])
    | _ => statement

/-- The function that a line declares with `.type`; `none` if it is no such declaration. -/
def declaredFunction? (cs : List Char) : Option (List Char) :=
  let directive := ".type".toList
  let body := Text.trimLeft cs
  if directive.isPrefixOf body then
    match Text.cutFirst ',' (body.drop directive.length) with
    | some (name, kind) =>
      match name with
      | blank :: _ :: _ =>
        if Text.isBlank blank && "%function".toList.isPrefixOf (Text.trimLeft kind) then
          some (Text.trim name)
        else none
      | _ => none
    | none => none
  else none

/-- Whether the line mentions the kind of symbol that functions have. -/
def mentionsFunction (cs : List Char) : Bool := Text.occursIn "%function".toList cs

/-- Directives that carry only debug or size metadata. -/
def metadataDirectives : List String := [".cfi", ".size", ".loc"]

/-- The directive may stand anywhere on the line, within another word as well. -/
def mentionsMetadata (cs : List Char) : Bool :=
  metadataDirectives.any fun directive => Text.occursIn directive.toList cs

/-- What is told about a line while it is read. -/
def lineEvents (line : Nat) (cs : List Char) : List Event :=
  let text := String.ofList (Text.trim cs)
  let meaning :=
    match Line.classify cs with
    | .label _ true => [Event.textAfterLabel line text]
    | .unmatched => [Event.unmatchedLine line text]
    | .label _ false | .instruction .. | .ignored => []
  let declaration :=
    if mentionsFunction cs && (declaredFunction? cs).isNone then
      [Event.malformedFunction line text]
    else []
  meaning ++ declaration

end RamOverlay.Source
