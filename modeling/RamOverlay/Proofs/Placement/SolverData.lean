import RamOverlay.Placement.DataSection
import RamOverlay.Placement.MathProg
import RamOverlay.Proofs.Text.Pieces

/-!
# Reading solver data back

The text in which a placement problem is handed to the solver says what the problem holds.

* **`Says`**: the words of a text without a semicolon. Texts that say something are put together
  with blanks between them.
* **`says_table`**, **`says_successorTable`** and their like: the words of each statement.
* **`statement?_table`**, **`statement?_matrix`**: what the words of a statement are read as.
* **`read?_mathprog`**: the whole section, for names that are words.
-/

namespace RamOverlay

namespace DataSection

/-! ## Words -/

/-- A text that blanks and semicolons set apart from others. -/
structure IsWord (s : String) : Prop where
  ne_empty : s ≠ ""
  plain : ∀ c ∈ s.toList, Text.isBlank c = false ∧ c ≠ ';'

instance (s : String) : Decidable (IsWord s) :=
  have := List.decidableBAll (fun c => Text.isBlank c = false ∧ c ≠ ';') s.toList
  decidable_of_iff (s ≠ "" ∧ ∀ c ∈ s.toList, Text.isBlank c = false ∧ c ≠ ';')
    ⟨fun h => ⟨h.1, h.2⟩, fun h => ⟨h.ne_empty, h.plain⟩⟩

/-- Blanks that stand between words. -/
def IsGap (cs : List Char) : Prop := ∀ c ∈ cs, Text.isBlank c = true

instance : DecidablePred IsGap := fun cs => List.decidableBAll (Text.isBlank · = true) cs

/-- A text with no semicolon and these words. -/
structure Says (cs : List Char) (words : List String) : Prop where
  words_eq : wordsOf cs = words
  plain : ';' ∉ cs

namespace Says

variable {cs ds : List Char} {us ws : List String} {s : String}

theorem nil : Says [] [] := ⟨rfl, List.not_mem_nil⟩

/-- A word says itself. -/
theorem word (h : IsWord s) : Says s.toList [s] := by
  constructor
  · have hne : s.toList ≠ [] := fun hnil => h.ne_empty (String.toList_eq_nil_iff.1 hnil)
    rw [wordsOf, Text.words_of_not_blank hne fun c hc => (h.plain c hc).1]
    simp
  · exact fun hmem => (h.plain _ hmem).2 rfl

/-- Blanks before a text do not count. -/
theorem indent (h : Says cs ws) (gap : List Char) (hgap : IsGap gap) :
    Says (gap ++ cs) ws := by
  induction gap with
  | nil => exact h
  | cons c gap ih =>
    obtain ⟨hc, hgap⟩ := List.forall_mem_cons.1 hgap
    have hrest := ih hgap
    have hne : ';' ≠ c := by rintro rfl; exact absurd hc (by decide)
    constructor
    · rw [List.cons_append, wordsOf, Text.words_blank_cons hc]
      exact hrest.words_eq
    · rw [List.cons_append, List.mem_cons, not_or]
      exact ⟨hne, hrest.plain⟩

/-- Two texts with blanks between them. -/
theorem append (hcs : Says cs ws) (gap : List Char) (hds : Says ds us)
    (hgap : IsGap gap) (hne : gap ≠ []) :
    Says (cs ++ (gap ++ ds)) (ws ++ us) := by
  have hrest := hds.indent gap hgap
  obtain ⟨c, gap, rfl⟩ := List.exists_cons_of_ne_nil hne
  have hc := hgap c List.mem_cons_self
  constructor
  · rw [List.cons_append, wordsOf, Text.words_append_cons hc, List.map_append]
    -- the first blank of the gap ends the words before it
    have htail := hrest.words_eq
    rw [List.cons_append, wordsOf, Text.words_blank_cons hc] at htail
    rw [htail]
    exact congrArg (· ++ us) hcs.words_eq
  · rw [List.mem_append, not_or]
    exact ⟨hcs.plain, hrest.plain⟩

/-- Texts one after the other, each with the blanks behind it. -/
theorem join {α : Type} (text : α → String) (words : α → List String) (gap : String)
    (hgap : IsGap gap.toList) (hne : gap.toList ≠ []) (items : List α)
    (h : ∀ a ∈ items, Says (text a).toList (words a)) :
    Says (String.join (items.map fun a => text a ++ gap)).toList (items.flatMap words) := by
  induction items with
  | nil => exact nil
  | cons a items ih =>
    obtain ⟨ha, hitems⟩ := List.forall_mem_cons.1 h
    rw [List.map_cons, String.join_cons, String.toList_append, String.toList_append,
      List.append_assoc]
    exact ha.append gap.toList (ih hitems) hgap hne

theorem joinWith (strings : List String) (h : ∀ s ∈ strings, IsWord s) :
    Says (Text.joinWith " " strings).toList strings := by
  induction strings with
  | nil => exact nil
  | cons s strings ih =>
    obtain ⟨hs, hstrings⟩ := List.forall_mem_cons.1 h
    cases strings with
    | nil =>
      rw [Text.joinWith_singleton]
      exact word hs
    | cons next strings =>
      rw [Text.joinWith_cons_cons, String.toList_append, String.toList_append]
      exact (word hs).append [' '] (ih hstrings) (by decide) (by decide)

end Says

/-! ## Statements -/

/-- Blanks before a statement do not count. -/
theorem statements_indent {gap : List Char} (hgap : IsGap gap)
    (cs : List Char) : statements (gap ++ cs) = statements cs := by
  induction gap with
  | nil => rfl
  | cons c gap ih =>
    obtain ⟨hc, hgap⟩ := List.forall_mem_cons.1 hgap
    -- a blank is no semicolon, so it belongs to the first statement
    have hne : (c == ';') = false := by
      rw [beq_eq_false_iff_ne]
      rintro rfl
      exact absurd hc (by decide)
    rw [← ih hgap]
    unfold statements Text.pieces
    rw [List.cons_append, Text.piecesBy, hne]
    cases hpieces : Text.piecesBy (· == ';') (gap ++ cs) with
    | nil => exact absurd hpieces (Text.piecesBy_ne_nil _ _)
    | cons piece rest => simp [wordsOf, Text.words_blank_cons hc]

/-- The first statement ends at its semicolon. -/
theorem statements_append {body gap : List Char} {words : List String} (h : Says body words)
    (hgap : IsGap gap) (rest : List Char) :
    statements (body ++ (';' :: gap ++ rest)) = words :: statements rest := by
  rw [List.cons_append, statements, Text.pieces_append_cons h.plain, List.map_cons, h.words_eq]
  exact congrArg (words :: ·) (statements_indent hgap rest)

/-- A statement that is read is followed by the others. -/
theorem entries?_cons {words : List String} {rest : List (List String)} {entry : Entry}
    {entries : List Entry} (hentry : statement? words = some entry)
    (hrest : entries? rest = some entries) :
    entries? (words :: rest) = some (entry :: entries) := by
  have hne : words ≠ ["end"] := by
    rintro rfl
    simp [statement?] at hentry
  simp [entries?, hne, hentry, hrest]

/-! ## Entries -/

variable {α : Type}

theorem pairs?_flatMap (name : α → String) (number : α → Nat) (items : List α) :
    pairs? (items.flatMap fun a => [name a, Text.decimal (number a)])
      = some (items.map fun a => (name a, number a)) := by
  induction items with
  | nil => rfl
  | cons a items ih => simp [pairs?, ih]

/-- A column is read back. -/
theorem statement?_table (title : String) (name : α → String) (number : α → Nat) (items : List α) :
    statement? ("param" :: title :: ":=" ::
        items.flatMap fun a => [name a, Text.decimal (number a)])
      = some (.table title (items.map fun a => (name a, number a))) := by
  have hpairs := pairs?_flatMap name number items
  cases items with
  | nil => rfl
  | cons a items =>
    simp only [List.flatMap_cons, List.cons_append, List.nil_append, statement?] at hpairs ⊢
    rw [hpairs]
    rfl

theorem rows?_flatMap (name : α → String) (numbers : α → List Nat) (width : Nat) (items : List α)
    (hwidth : ∀ a ∈ items, (numbers a).length = width) :
    rows? width (items.flatMap fun a => name a :: (numbers a).map Text.decimal)
      = some (items.map fun a => (name a, numbers a)) := by
  induction items with
  | nil => simp [rows?]
  | cons a items ih =>
    obtain ⟨ha, hitems⟩ := List.forall_mem_cons.1 hwidth
    have hlength : ((numbers a).map Text.decimal).length = width := by simp [ha]
    -- the numbers of a row are read back one by one
    have hread : ((numbers a).map Text.decimal).mapM (fun value => Text.digits? value.toList)
        = some (numbers a) := by
      induction numbers a with
      | nil => rfl
      | cons n ns ih => simp [ih]
    rw [List.flatMap_cons, List.cons_append, rows?, if_neg (by simp [ha])]
    rw [List.take_left' hlength, List.drop_left' hlength, hread, ih hitems]
    rfl

/-- A matrix is read back, if its rows are as long as it is wide. -/
theorem statement?_matrix (title : String) (name : α → String) (numbers : α → List Nat)
    (columns : List String) (items : List α) (hcolumns : ∀ column ∈ columns, column ≠ ":=")
    (hwidth : ∀ a ∈ items, (numbers a).length = columns.length) :
    statement? ("param" :: title :: ":" :: (columns ++ ":=" ::
        items.flatMap fun a => name a :: (numbers a).map Text.decimal))
      = some (.matrix title columns (items.map fun a => (name a, numbers a))) := by
  have hrows := rows?_flatMap name numbers columns.length items hwidth
  have hkeep : ∀ column ∈ columns, decide (column ≠ ":=") = true := by simpa using hcolumns
  simp only [statement?]
  rw [List.takeWhile_append_of_pos hkeep, List.dropWhile_append_of_pos hkeep]
  simp [hrows]

end DataSection

/-! ## Numbers -/

theorem DataSection.IsWord.of_chars {s : String} (hne : s.toList ≠ []) (h : ∀ c ∈ s.toList,
    c.isAlphanum = true ∨ c = '.' ∨ c = '-') : DataSection.IsWord s := by
  refine ⟨fun hempty => hne (String.toList_eq_nil_iff.2 hempty), fun c hc => ?_⟩
  rcases h c hc with hword | rfl | rfl
  · refine ⟨Text.isBlank_of_isAlphanum hword, ?_⟩
    rintro rfl
    exact absurd hword (by decide)
  · decide
  · decide

theorem isWord_decimal (n : Nat) : DataSection.IsWord (Text.decimal n) := by
  refine .of_chars ?_ fun c hc => .inl ?_
  · rw [Text.decimal, String.toList_ofList]
    exact Text.decimalBefore_ne_nil _ _ _ (Nat.succ_pos n)
  · simp [Char.isAlphanum, Text.isDigit_of_mem_decimal c hc]

namespace Binary64

theorem mem_of_mem_dropZeros {c : Char} {most : Nat} {digits : List Char}
    (h : c ∈ dropZeros most digits) : c ∈ digits := by
  fun_induction dropZeros most digits with
  | case1 most rest ih => exact List.mem_cons_of_mem _ (ih h)
  | case2 => exact h

theorem Decimal.mem_text {d : Decimal} {c : Char} (hc : c ∈ d.text) :
    c.isDigit = true ∨ c = '.' := by
  have hdigits : ∀ c ∈ Text.decimalDigits d.digits, c.isDigit = true := by
    intro c hc
    exact Text.isDigit_of_mem_decimal (n := d.digits) c (by simpa [Text.decimal] using hc)
  have hzero : ∀ n, ∀ c ∈ List.replicate n '0', c.isDigit = true :=
    fun n c hc => by rw [List.eq_of_mem_replicate hc]; decide
  simp only [text] at hc
  split at hc
  · rcases List.mem_append.1 hc with hc | hc
    · exact .inl (hdigits c hc)
    · exact .inl (hzero _ c hc)
  · -- the digits with the zeros in front of them, of which both parts are taken
    have hpadded := List.forall_mem_append.2
      ⟨hzero ((-d.exponent).toNat + 1 - (Text.decimalDigits d.digits).length), hdigits⟩
    split at hc
    · exact .inl (hpadded c (List.mem_of_mem_take hc))
    · rcases List.mem_append.1 hc with hc | hc
      · exact .inl (hpadded c (List.mem_of_mem_take hc))
      · rcases List.mem_cons.1 hc with hc | hc
        · exact .inr hc
        · have hmem := mem_of_mem_dropZeros (List.mem_reverse.1 hc)
          exact .inl (hpadded c (List.mem_of_mem_drop (List.mem_reverse.1 hmem)))

theorem Decimal.text_ne_nil (d : Decimal) : d.text ≠ [] := by
  have hdigits : Text.decimalDigits d.digits ≠ [] := Text.decimalBefore_ne_nil _ _ _ (by omega)
  simp only [text]
  split
  · simp [hdigits]
  · split
    · -- the zeros in front leave a digit before the point
      intro hnil
      have hlength := congrArg List.length hnil
      simp only [List.length_take, List.length_append, List.length_replicate,
        List.length_nil] at hlength
      omega
    · simp

theorem isWord_text (number : Binary64) : DataSection.IsWord number.text := by
  cases number with
  | nan => decide
  | infinite negative => cases negative <;> decide
  | finite negative significand exponent =>
    -- a sign in front of digits does no harm
    have hdigits : ∀ digits : List Char, digits ≠ [] → (∀ c ∈ digits, c.isDigit = true ∨ c = '.') →
        DataSection.IsWord (String.ofList (if negative then '-' :: digits else digits)) := by
      intro digits hne hchars
      have hplain : ∀ c ∈ digits, c.isAlphanum = true ∨ c = '.' ∨ c = '-' := fun c hc =>
        (hchars c hc).imp (fun hdigit => by simp [Char.isAlphanum, hdigit]) .inl
      cases negative with
      | false => exact .of_chars (by simpa using hne) (by simpa using hplain)
      | true => exact .of_chars (by simp) (by simpa using hplain)
    refine hdigits (if significand = 0 then ['0'] else (shortest significand exponent).text) ?_ ?_
    · split
      · simp
      · exact Decimal.text_ne_nil _
    · split
      · exact List.forall_mem_singleton.2 (.inl (by decide))
      · exact fun c hc => Decimal.mem_text hc

end Binary64

/-! ## The statements of a problem -/

namespace PlacementProblem

open DataSection

/-- The numbers that the problem has for its blocks, by the titles of their tables. -/
def numbers : List (String × (ProblemBlock → Nat)) :=
  [("usize", (·.cost.size)),
    ("cyc_cost", (·.cost.cycles)),
    ("iterations", (·.iterations)),
    ("force_ram", (·.forceRam.toNat)),
    ("force_flash", (·.forceFlash.toNat)),
    ("icost_ram", (·.instrumentation.size)),
    ("icost_cyc", (·.instrumentation.cycles)),
    ("icost_cyc_ram", (·.ramAccessCycles))]

theorem bit_eq_decimal (b : Bool) : bit b = Text.decimal b.toNat := by
  cases b <;> decide

theorem properties_eq : properties =
    numbers.map fun (title, number) => (title, fun block => Text.decimal (number block)) := by
  simp [properties, numbers, bit_eq_decimal]

variable {problem : PlacementProblem}

/-- A padded name and what stands behind it. -/
theorem says_padRight {name : String} {rest : List Char} {words : List String}
    (hname : IsWord name) (width : Nat) (gap : List Char) (hrest : Says rest words)
    (hgap : IsGap gap) (hne : gap ≠ []) :
    Says ((padRight width name).toList ++ (gap ++ rest)) (name :: words) := by
  have hblank : IsGap (List.replicate (width - name.length) ' ' ++ gap) := by
    refine List.forall_mem_append.2 ?_
    exact ⟨fun c hc => by rw [List.eq_of_mem_replicate hc]; decide, hgap⟩
  have hpart := (Says.word hname).append _ hrest hblank (by simp [hne])
  simpa [padRight] using hpart

theorem says_tableRow {name : String} (hname : IsWord name) (width n : Nat) :
    Says ("\t" ++ padRight width name ++ " " ++ Text.decimal n).toList
      [name, Text.decimal n] := by
  have hrow := says_padRight hname width [' '] (.word (isWord_decimal n)) (by decide) (by decide)
  simpa using hrow.indent ['\t'] (by decide)

/-- The first words of a statement. -/
theorem says_head {keyword title mark : String} {rest : List Char} {words : List String}
    (hkeyword : IsWord keyword) (htitle : IsWord title) (hmark : IsWord mark) (gap : List Char)
    (hrest : Says rest words) (hgap : IsGap gap) (hne : gap ≠ []) :
    Says ((keyword ++ " " ++ title ++ " " ++ mark).toList ++ (gap ++ rest))
      (keyword :: title :: mark :: words) := by
  have hpart := (Says.word hkeyword).append [' ']
    ((Says.word htitle).append [' '] ((Says.word hmark).append gap hrest hgap hne)
      (by decide) (by decide)) (by decide) (by decide)
  simpa using hpart

theorem isWord_param : IsWord "param" := by decide

theorem isWord_assign : IsWord ":=" := by decide

/-- A setting says its title and its value. -/
theorem says_setting {title value : String} (htitle : IsWord title) (hvalue : IsWord value) :
    ∃ body, (setting title value).toList = body ++ [';', '\n'] ∧
      Says body ["param", title, ":=", value] := by
  refine ⟨_, ?_, says_head isWord_param htitle isWord_assign [' '] (.word hvalue)
    (by decide) (by decide)⟩
  simp [setting]

/-- A column says its title, and then each block with its number. -/
theorem says_table (hnames : ∀ block ∈ problem.blocks, IsWord block.name) {title : String}
    (htitle : IsWord title) (number : ProblemBlock → Nat) :
    ∃ body, (problem.table title fun block => Text.decimal (number block)).toList
        = body ++ [';', '\n', '\n'] ∧
      Says body ("param" :: title :: ":=" ::
        problem.blocks.flatMap fun block => [block.name, Text.decimal (number block)]) := by
  have hrows := Says.join
    (fun block : ProblemBlock => "\t" ++ padRight problem.nameWidth block.name ++ " "
      ++ Text.decimal (number block)) _ "\n" (by decide) (by decide) problem.blocks
    fun block hblock => says_tableRow (hnames block hblock) _ _
  refine ⟨_, ?_, says_head isWord_param htitle isWord_assign ['\n'] hrows (by decide) (by decide)⟩
  simp [table]

/-- Which blocks follow a block, a digit for each block of the problem. -/
def successorBits (problem : PlacementProblem) (block : ProblemBlock) : List Nat :=
  (List.range problem.blocks.length).map fun j => (block.successors.contains j).toNat

/-- A row of the matrix says the block and its bits. -/
theorem says_successorRow {block : ProblemBlock} (hname : IsWord block.name) :
    Says ("\t" ++ padRight problem.nameWidth block.name ++ "\t\t"
        ++ String.join ((List.range problem.blocks.length).map fun j =>
          bit (block.successors.contains j) ++ " ")).toList
      (block.name :: (problem.successorBits block).map Text.decimal) := by
  -- a bit is written as the digit that it is, with a blank behind it
  have hbits := Says.join (fun j => bit (block.successors.contains j))
    (fun j => [Text.decimal (block.successors.contains j).toNat]) " " (by decide) (by decide)
    (List.range problem.blocks.length)
    fun j _ => by rw [bit_eq_decimal]; exact .word (isWord_decimal _)
  have hrow := says_padRight hname problem.nameWidth ['\t', '\t'] hbits (by decide) (by decide)
  have hwords : (List.range problem.blocks.length).flatMap
      (fun j => [Text.decimal (block.successors.contains j).toNat])
        = (problem.successorBits block).map Text.decimal := by
    rw [successorBits, List.map_map, List.map_eq_flatMap]
    rfl
  rw [hwords] at hrow
  simpa using hrow.indent ['\t'] (by decide)

theorem says_names (hnames : ∀ block ∈ problem.blocks, IsWord block.name) :
    Says (Text.joinWith " " problem.names).toList problem.names :=
  Says.joinWith problem.names fun name hname => by
    obtain ⟨block, hblock, rfl⟩ := List.mem_map.1 hname
    exact hnames block hblock

/-- The matrix says its columns and then its rows. -/
theorem says_successorTable (hnames : ∀ block ∈ problem.blocks, IsWord block.name) :
    ∃ body, problem.successorTable.toList = body ++ [';', '\n', '\n'] ∧
      Says body ("param" :: "successors" :: ":" :: (problem.names ++ ":=" ::
        problem.blocks.flatMap fun block =>
          block.name :: (problem.successorBits block).map Text.decimal)) := by
  have hrows := Says.join
    (fun block : ProblemBlock => "\t" ++ padRight problem.nameWidth block.name ++ "\t\t"
        ++ String.join ((List.range problem.blocks.length).map fun j =>
          bit (block.successors.contains j) ++ " "))
    (fun block => block.name :: (problem.successorBits block).map Text.decimal)
    "\n" (by decide) (by decide) problem.blocks
    fun block hblock => says_successorRow (hnames block hblock)
  -- the rows, then the names with the assignment sign behind, then the head
  have hcells := (Says.word isWord_assign).append ['\n'] hrows (by decide) (by decide)
  rw [List.singleton_append] at hcells
  have htitle : IsWord "successors" := by decide
  have hmark : IsWord ":" := by decide
  have hbody := (says_names hnames).append [' '] hcells (by decide) (by decide)
  have hpart := says_head isWord_param htitle hmark [' '] hbody (by decide) (by decide)
  refine ⟨_, ?_, hpart⟩
  change ("param successors : " ++ Text.joinWith " " problem.names ++ " :=\n"
    ++ String.join (problem.blocks.map problem.successorRow) ++ ";\n\n").toList = _
  have hrow : problem.successorRow = fun block =>
      "\t" ++ padRight problem.nameWidth block.name ++ "\t\t"
        ++ String.join ((List.range problem.blocks.length).map fun j =>
          bit (block.successors.contains j) ++ " ") ++ "\n" := rfl
  simp [hrow]

/-- What the data section of the problem says. -/
def data (problem : PlacementProblem) : List Entry :=
  .set "BBs" problem.names
    :: numbers.map (fun (title, number) =>
        .table title (problem.blocks.map fun block => (block.name, number block)))
    ++ [.matrix "successors" problem.names
        (problem.blocks.map fun block => (block.name, problem.successorBits block)),
      .setting "E_flash" (Text.decimal problem.config.flashEnergy),
      .setting "E_ram" (Text.decimal problem.config.ramEnergy),
      .setting "spare_ram" (Text.decimal problem.config.spareRam),
      .setting "max_cycle_factor" problem.config.maxCycleFactor.text]

/-- The rest of a section reads as the entries. -/
def Reads (cs : List Char) (entries : List Entry) : Prop :=
  entries? (statements cs) = some entries

/-- One more statement at the front. -/
theorem Reads.cons {text rest : List Char} {body gap : List Char} {words : List String}
    {entry : Entry} {entries : List Entry} (hrest : Reads rest entries)
    (htext : text = body ++ ';' :: gap) (hpart : Says body words)
    (hgap : IsGap gap) (hentry : statement? words = some entry) :
    Reads (text ++ rest) (entry :: entries) := by
  rw [Reads, htext, List.append_assoc, statements_append hpart hgap]
  exact entries?_cons hentry hrest

/-- A setting in front is read as one entry more. -/
theorem Reads.setting {value : String} {rest : List Char} {entries : List Entry}
    (hrest : Reads rest entries) (title : String) (htitle : IsWord title) (hvalue : IsWord value) :
    Reads ((PlacementProblem.setting title value).toList ++ rest)
      (.setting title value :: entries) := by
  obtain ⟨body, htext, hpart⟩ := says_setting htitle hvalue
  exact hrest.cons htext hpart (by decide) rfl

/-- So are columns in front. -/
theorem Reads.tables (hnames : ∀ block ∈ problem.blocks, IsWord block.name)
    (tables : List (String × (ProblemBlock → Nat))) (htitles : ∀ table ∈ tables, IsWord table.1)
    {rest : List Char} {entries : List Entry} (hrest : Reads rest entries) :
    Reads ((String.join (tables.map fun (title, number) =>
        problem.table title fun block => Text.decimal (number block))).toList ++ rest)
      (tables.map (fun (title, number) =>
        .table title (problem.blocks.map fun block => (block.name, number block))) ++ entries) := by
  induction tables with
  | nil => exact hrest
  | cons table tables ih =>
    obtain ⟨htitle, htitles⟩ := List.forall_mem_cons.1 htitles
    -- each table is one statement in front of the rest
    obtain ⟨body, htext, hpart⟩ := says_table hnames htitle table.2
    rw [List.map_cons, String.join_cons, String.toList_append, List.append_assoc, List.map_cons]
    exact (ih htitles).cons htext hpart (by decide) (statement?_table table.1 _ _ _)

/-- The data section, with one table for each number of a block. -/
theorem mathprog_eq (problem : PlacementProblem) : problem.mathprog =
    "set BBs := " ++ Text.joinWith " " problem.names ++ ";\n\n"
      ++ String.join (numbers.map fun (title, number) =>
        problem.table title fun block => Text.decimal (number block))
      ++ problem.successorTable
      ++ PlacementProblem.setting "E_flash" (Text.decimal problem.config.flashEnergy)
      ++ PlacementProblem.setting "E_ram" (Text.decimal problem.config.ramEnergy)
      ++ PlacementProblem.setting "spare_ram" (Text.decimal problem.config.spareRam)
      ++ PlacementProblem.setting "max_cycle_factor" problem.config.maxCycleFactor.text
      ++ "end;\n" := by
  -- what is written for each block is a number, in all of the tables
  have hproperties : properties.map (fun property => problem.table property.1 property.2) =
      numbers.map fun (title, number) =>
        problem.table title fun block => Text.decimal (number block) := by
    rw [properties_eq, List.map_map]
    rfl
  rw [← hproperties]
  rfl

/-- The data section is read back. -/
theorem read?_mathprog (hnames : ∀ block ∈ problem.blocks, IsWord block.name)
    (hassign : ∀ block ∈ problem.blocks, block.name ≠ ":=") :
    read? problem.mathprog = some problem.data := by
  -- from the end to the front, one statement after the other
  have hend : Reads "end;\n".toList [] := by unfold Reads; decide
  have hsettings := hend
    |>.setting "max_cycle_factor" (by decide) problem.config.maxCycleFactor.isWord_text
    |>.setting "spare_ram" (by decide) (isWord_decimal problem.config.spareRam)
    |>.setting "E_ram" (by decide) (isWord_decimal problem.config.ramEnergy)
    |>.setting "E_flash" (by decide) (isWord_decimal problem.config.flashEnergy)
  obtain ⟨matrix, hmatrix, hpart⟩ := says_successorTable hnames
  have hcolumns : ∀ name ∈ problem.names, name ≠ ":=" := fun name hname => by
    obtain ⟨block, hblock, rfl⟩ := List.mem_map.1 hname
    exact hassign block hblock
  have hread := hsettings.cons hmatrix hpart (by decide)
    (statement?_matrix "successors" ProblemBlock.name problem.successorBits problem.names
      problem.blocks hcolumns fun block _ => by simp [successorBits, names])
  have htables := Reads.tables hnames numbers (by decide) hread
  have hkeyword : IsWord "set" := by decide
  have htitle : IsWord "BBs" := by decide
  have hset := says_head hkeyword htitle isWord_assign [' '] (says_names hnames) (by decide)
    (by decide)
  have hblank : IsGap ['\n', '\n'] := by decide
  have hall := htables.cons rfl hset hblank rfl
  rw [read?, mathprog_eq]
  simpa [Reads, data] using hall

end PlacementProblem

end RamOverlay
