import RamOverlay.Proofs.Exit.Machine
import RamOverlay.Proofs.Text.Pieces

/-!
# How the lines of an exit are read

* **`classify_statement`**: a mnemonic and operands behind four blanks are read as what they are,
  whatever label the operands mention.
* **`Assembler.read?_unary`**, **`Assembler.read?_binary`**: so is a line with a register, and one
  with a register and another operand.
-/

namespace RamOverlay

namespace Source

/-- A mnemonic of lower-case letters. -/
def IsMnemonic (operator : List Char) : Prop :=
  operator ≠ [] ∧ ∀ c ∈ operator, isMnemonicChar c = true ∧ c.toLower = c ∧ c ≠ '.' ∧ c ≠ '@' ∧
    c ≠ ':' ∧ Text.isBlank c = false

instance (operator : List Char) : Decidable (IsMnemonic operator) :=
  have := List.decidableBAll (fun c => isMnemonicChar c = true ∧ c.toLower = c ∧ c ≠ '.' ∧ c ≠ '@' ∧
    c ≠ ':' ∧ Text.isBlank c = false) operator
  inferInstanceAs (Decidable (_ ∧ _))

variable {operator more cs : List Char} {first last : Char}

/-- A mnemonic, a blank and operands without a comment are read as just that. -/
theorem Line.ofStatement_eq (hoperator : IsMnemonic operator) (hfirst : Text.isBlank first = false)
    (hlast : Text.isBlank last = false) (hoperands : first :: more = cs ++ [last])
    (hcomment : ∀ c ∈ first :: more, c ≠ ';' ∧ c ≠ '@') :
    Line.ofStatement (operator ++ ' ' :: first :: more) =
      .instruction operator (first :: more) := by
  obtain ⟨hne, hchars⟩ := hoperator
  have hblank : isMnemonicChar ' ' = false := by decide
  have hlower : operator.map Char.toLower = operator :=
    (List.map_congr_left fun c hc => (hchars c hc).2.1).trans (List.map_id _)
  -- the mnemonic ends at the blank, and the operands have no comment to be cut off
  have htake : (operator ++ ' ' :: first :: more).takeWhile isMnemonicChar = operator := by
    rw [List.takeWhile_append_of_pos fun c hc => (hchars c hc).1]
    simp [hblank]
  have hdrop : (operator ++ ' ' :: first :: more).dropWhile isMnemonicChar =
      ' ' :: first :: more := by
    rw [List.dropWhile_append_of_pos fun c hc => (hchars c hc).1]
    simp [hblank]
  have hall : (' ' :: first :: more).takeWhile (fun c => c != ';' && c != '@') =
      ' ' :: first :: more := by
    rw [← List.append_nil (' ' :: first :: more), List.takeWhile_append_of_pos, List.takeWhile_nil]
    exact List.forall_mem_cons.2 ⟨by decide, fun c hc => by simpa using hcomment c hc⟩
  have htrim : Text.trim (' ' :: first :: more) = first :: more := by
    rw [Text.trim_blank_cons (by decide), Text.trim_of_ends hfirst hlast hoperands]
  cases operator with
  | nil => exact absurd rfl hne
  | cons o operator =>
    unfold Line.ofStatement
    rw [htake, hdrop, hall]
    dsimp only
    rw [hlower, htrim]

/-- A text that begins with characters other than the separator keeps them before its first. -/
theorem exists_eq_append {sep : Char} {start head tail more : List Char} (h : sep ∉ start)
    (heq : head ++ sep :: tail = start ++ more) : ∃ rest, head = start ++ rest := by
  obtain ⟨rest, rfl, htail⟩ | ⟨rest, hhead, -⟩ := List.append_eq_append_iff.1 heq
  · cases rest with
    | nil => exact ⟨[], by simp⟩
    | cons c rest =>
      rw [List.cons_append, List.cons.injEq] at htail
      obtain rfl := htail.1
      simp at h
  · exact ⟨rest, hhead⟩

/-- A line that begins neither a directive nor a comment, and is no label, is a statement. -/
theorem Line.classify_of_trim {o : Char} (htrim : Text.trim cs = o :: more) (hdot : o ≠ '.')
    (hat : o ≠ '@')
    (hcase : ∀ head tail, Text.pieces ':' cs = [head, tail] →
      (Text.trim head).any (fun c => c == ' ' || c == '\t') = true) :
    Line.classify cs = Line.ofStatement (o :: more) := by
  unfold Line.classify
  rw [htrim]
  dsimp only
  rw [if_neg (List.cons_ne_nil o more)]
  split
  next head tail hpieces =>
    -- a single colon with a blank before it makes no label
    rw [if_pos (hcase head tail hpieces)]
    split <;> simp_all
  next => split <;> simp_all

/-- A mnemonic behind four blanks, and operands that begin with no colon, end with no blank and hold
no comment. -/
theorem Line.classify_statement (hoperator : IsMnemonic operator)
    (hfirst : Text.isBlank first = false) (hcolon : first ≠ ':')
    (hlast : Text.isBlank last = false) (hoperands : first :: more = cs ++ [last])
    (hcomment : ∀ c ∈ first :: more, c ≠ ';' ∧ c ≠ '@') :
    Line.classify ("    ".toList ++ operator ++ ' ' :: first :: more) =
      .instruction operator (first :: more) := by
  have hstatement := Line.ofStatement_eq hoperator hfirst hlast hoperands hcomment
  obtain ⟨hne, hchars⟩ := hoperator
  cases operator with
  | nil => exact absurd rfl hne
  | cons o operator =>
    obtain ⟨_, _, hdot, hat, _, hblank⟩ := hchars o List.mem_cons_self
    have hleft : ∀ rest, Text.trimLeft ("    ".toList ++ o :: operator ++ rest) =
        o :: operator ++ rest := fun rest => Text.trimLeft_cons hblank _
    have htrim : Text.trim ("    ".toList ++ o :: operator ++ ' ' :: first :: more) =
        o :: operator ++ ' ' :: first :: more := by
      have hends : o :: operator ++ ' ' :: first :: more =
          (o :: operator ++ ' ' :: cs) ++ last :: [] := by
        rw [hoperands, List.append_assoc]
        rfl
      rw [Text.trim, hleft, hends, Text.trimRight_append_cons hlast]
      rfl
    have hcase : ∀ head tail,
        Text.pieces ':' ("    ".toList ++ o :: operator ++ ' ' :: first :: more) = [head, tail] →
        (Text.trim head).any (fun c => c == ' ' || c == '\t') = true := by
      intro head tail hpieces
      -- the colon stands behind the first operand, and so the blank before that is kept
      have htext := Text.intercalate_pieces ':'
        ("    ".toList ++ o :: operator ++ ' ' :: first :: more)
      rw [hpieces] at htext
      have hbefore : ':' ∉ "    ".toList ++ o :: operator ++ [' ', first] := by
        simp only [List.mem_append, not_or]
        refine ⟨⟨by decide, fun ho => (hchars _ ho).2.2.2.2.1 rfl⟩, ?_⟩
        simpa using Ne.symm hcolon
      have hsplit : head ++ ':' :: tail =
          "    ".toList ++ o :: operator ++ [' ', first] ++ more := by
        simpa using htext
      obtain ⟨rest, rfl⟩ := exists_eq_append hbefore hsplit
      have hends : o :: operator ++ ([' ', first] ++ rest) =
          (o :: operator ++ [' ']) ++ first :: rest := by simp
      rw [List.append_assoc, Text.trim, hleft, hends, Text.trimRight_append_cons hfirst]
      simp
    exact (classify_of_trim htrim hdot hat hcase).trans hstatement

/-- A text that neither ends a line nor begins a comment. -/
def Plain (s : String) : Prop := ∀ c ∈ s.toList, c ≠ '\n' ∧ c ≠ ';' ∧ c ≠ '@'

instance (s : String) : Decidable (Plain s) := List.decidableBAll _ s.toList

theorem Plain.append {s t : String} (hs : Plain s) (ht : Plain t) : Plain (s ++ t) := by
  intro c hc
  rw [String.toList_append, List.mem_append] at hc
  exact hc.elim (hs c) (ht c)

end Source

namespace Thumb2.Assembler

open Source (IsMnemonic Plain Line)

variable {asm : Assembler} {operator name : String} {register : Fin 16}

/-- The name of a register holds neither blanks nor marks. -/
theorem plain_of_register (h : asm.register? name = some register) : Plain name := by
  intro c hc
  have hword := (asm.word name register h).2 c hc
  refine ⟨?_, ?_, ?_⟩ <;> rintro rfl <;> revert hword <;> decide

theorem not_mem_of_register {c : Char} (h : asm.register? name = some register)
    (hc : c.isAlphanum = false) : c ∉ name.toList := fun hmem => by
  rw [(asm.word name register h).2 c hmem] at hc
  exact Bool.noConfusion hc

/-- The name of a register begins and ends with characters of words. -/
theorem ends_of_register (h : asm.register? name = some register) :
    ∃ first more front last, name.toList = first :: more ∧ name.toList = front ++ [last] ∧
      first.isAlphanum = true ∧ last.isAlphanum = true := by
  obtain ⟨hne, hword⟩ := asm.word name register h
  have hne : name.toList ≠ [] := fun hnil => hne (String.toList_eq_nil_iff.1 hnil)
  obtain ⟨first, more, hfirst⟩ := List.exists_cons_of_ne_nil hne
  refine ⟨first, more, name.toList.dropLast, name.toList.getLast hne, hfirst,
    (List.dropLast_concat_getLast hne).symm, hword _ ?_, hword _ (List.getLast_mem hne)⟩
  rw [hfirst]
  exact List.mem_cons_self

theorem strip_of_register (h : asm.register? name = some register) : Text.strip name = name := by
  obtain ⟨first, more, front, last, hfirst, hlast, hf, hl⟩ := ends_of_register h
  rw [Text.strip, hfirst, Text.trim_of_ends (Text.isBlank_of_isAlphanum hf)
    (Text.isBlank_of_isAlphanum hl) (hfirst.symm.trans hlast), ← hfirst, String.ofList_toList]

/-- A line with a register as its only operand. -/
theorem read?_unary (hoperator : IsMnemonic operator.toList)
    (hregister : asm.register? name = some register) :
    asm.read? ("    " ++ operator ++ " " ++ name) = asm.unary? operator name := by
  obtain ⟨first, more, front, last, hfirst, hlast, hf, hl⟩ := ends_of_register hregister
  have hclassify : Line.classify ("    " ++ operator ++ " " ++ name).toList =
      .instruction operator.toList name.toList := by
    simp only [String.toList_append]
    rw [hfirst]
    -- a register has neither a colon nor a comment sign in its name
    have hcolon : first ≠ ':' := by
      rintro rfl
      exact absurd hf (by decide)
    have hcomment : ∀ c ∈ first :: more, c ≠ ';' ∧ c ≠ '@' := by
      rw [← hfirst]
      exact fun c hc => (plain_of_register hregister c hc).2
    have := Line.classify_statement hoperator (Text.isBlank_of_isAlphanum hf) hcolon
      (Text.isBlank_of_isAlphanum hl) (hfirst.symm.trans hlast) hcomment
    simpa using this
  have hcomma : ',' ∉ name.toList := not_mem_of_register hregister (by decide)
  rw [read?, hclassify]
  dsimp only
  rw [Text.cutFirst_of_not_mem hcomma]
  simp only [String.ofList_toList]

section Binary

variable {second : String} {front more : List Char} {first last : Char}
  (hoperator : IsMnemonic operator.toList) (hregister : asm.register? name = some register)
  (hsecond : second.toList = first :: more) (hfirst : Text.isBlank first = false)
  (hends : first :: more = front ++ [last]) (hlast : Text.isBlank last = false)
  (hcomment : Plain second)

include hoperator hregister hsecond hends hlast hcomment in
/-- An indented line with two operands is an instruction. -/
theorem classify_binary :
    Line.classify ("    " ++ operator ++ " " ++ name ++ ", " ++ second).toList =
      .instruction operator.toList (name.toList ++ ", ".toList ++ second.toList) := by
  obtain ⟨n, ame, _, _, hname, -, hn, -⟩ := ends_of_register hregister
  have hcolon : n ≠ ':' := by
    rintro rfl
    exact absurd hn (by decide)
  have hoperands : n :: (ame ++ ", ".toList ++ second.toList) =
      (name.toList ++ ", ".toList ++ front) ++ [last] := by
    rw [List.append_assoc _ front, ← hends, ← hsecond, hname]
    rfl
  -- neither the register, nor the comma, nor the second operand begins a comment
  have hplain : ∀ c ∈ n :: (ame ++ ", ".toList ++ second.toList), c ≠ ';' ∧ c ≠ '@' := by
    rw [← List.cons_append, ← List.cons_append, ← hname]
    intro c hc
    rw [List.mem_append, List.mem_append] at hc
    obtain (hc | hc) | hc := hc
    · exact (plain_of_register hregister c hc).2
    · have hcomma : Plain ", " := by decide
      exact (hcomma c hc).2
    · exact (hcomment c hc).2
  have := Line.classify_statement hoperator (Text.isBlank_of_isAlphanum hn) hcolon hlast
    hoperands hplain
  simpa [hname] using this

include hregister in
/-- The operands of a line are cut behind the register. -/
theorem cutFirst_binary : Text.cutFirst ',' (name.toList ++ ", ".toList ++ second.toList) =
    some (name.toList, ' ' :: second.toList) := by
  rw [List.append_assoc]
  exact Text.cutFirst_append_cons (not_mem_of_register hregister (by decide)) _

include hsecond hfirst hends hlast in
theorem trim_binary : Text.trim (' ' :: second.toList) = second.toList := by
  rw [Text.trim_blank_cons (by decide), hsecond, Text.trim_of_ends hfirst hlast hends]

include hoperator hregister hsecond hfirst hends hlast hcomment in
/-- A line with a register and another operand. -/
theorem read?_binary : asm.read? ("    " ++ operator ++ " " ++ name ++ ", " ++ second) =
    asm.binary? operator name second.toList := by
  rw [read?, classify_binary hoperator hregister hsecond hends hlast hcomment]
  dsimp only
  rw [cutFirst_binary hregister]
  simp only [String.ofList_toList, strip_of_register hregister,
    trim_binary hsecond hfirst hends hlast]

end Binary

end Thumb2.Assembler

end RamOverlay
