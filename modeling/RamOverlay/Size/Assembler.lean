import RamOverlay.Text.Split

/-!
# Sizes from an assembler

The source text that makes an assembler encode one instruction, and the size that a disassembly of
the result shows. A label that the instruction refers to is defined a few instructions behind it, so
that a short encoding is in reach.
-/

namespace RamOverlay.Assembler

/-- The processor that is assembled for. -/
def defaultCpu : String := "cortex-m3"

/-- The beginning of the names of the tools, if none is found. -/
def defaultToolchain : String := "arm-none-eabi-"

/-- The beginnings of tool names that are looked for, in this order. -/
def toolchains : List String := ["arm-none-eabi-", "arm-linux-gnueabihf-", "arm-linux-gnueabi-"]

/-- The head of each file that is assembled, with the processor that it is for. -/
def preamble (cpu : String) : String :=
  "\t.syntax unified\n\t.cpu " ++ cpu ++ "\n\t.fpu softvfp\n"
    ++ String.join
      (["20, 1", "21, 1", "23, 3", "24, 1", "25, 1", "26, 1", "30, 6", "34, 1", "18, 4"].map
        fun setting => "\t.eabi_attribute " ++ setting ++ "\n")
    ++ "\t.thumb\n\n"

/-- A file with a single instruction. A label that it refers to stands a little behind it. -/
def source (cpu insn : String) (target? : Option String) : String :=
  preamble cpu ++ insn ++ "\n"
    ++ match target? with
      | some target => "nop\nnop\nnop\nnop\n" ++ target ++ ":\n"
      | none => ""

/-- Whether the character is a hexadecimal digit in lower case. -/
def isHexDigit (c : Char) : Bool := c.isDigit || ('a' ≤ c && c ≤ 'f')

/-- The bytes that a line of a disassembly shows: two digits each, behind an address and a colon. -/
def lineSize? (cs : List Char) : Option Nat :=
  let cs := Text.trimLeft cs
  match cs.takeWhile isHexDigit, cs.dropWhile isHexDigit with
  | _ :: _, ':' :: rest =>
    let code := (Text.trimLeft rest).takeWhile fun c => isHexDigit c || c == ' '
    let size := code.countP (!Text.isBlank ·) / 2
    if size = 0 then none else some size
  | _, _ => none

/-- The size of the first instruction in a disassembly. -/
def listingSize? (listing : String) : Option Nat :=
  (Text.lines listing.toList).findSome? lineSize?

end RamOverlay.Assembler
