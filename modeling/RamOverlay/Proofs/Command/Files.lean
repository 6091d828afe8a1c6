import RamOverlay.Command.Memory
import RamOverlay.Command.Run

/-!
# Commands and the files they leave

What commands do to files, on the host over files in memory, whatever the tools do.

* **`Memory.read_of_write`**, **`Memory.read_of_write_ne`**: what is written is read back, and all
  other files are as they were. Writing a file makes no directory, so paths lead where they led.
* **`Memory.Keeps`**: an action that leaves all files as they were. Actions that are put together
  from such actions are of this kind.
* **`Command.keeps_run_analyze`**: analyzing a program writes no file.
* **`Command.read_of_run_export`**: what an export leaves in its output is a placement problem.
-/

namespace RamOverlay

namespace Memory

variable {memory after : Memory} {path other resolved text : String} {bytes : List UInt8}

/-! ## Writing and reading back -/

/-- A file that is written where no directory is stops no path. -/
theorem follow_put {directory names found : List String}
    (hnew : memory.directories.contains path = false)
    (h : memory.follow directory names = .ok found) :
    ({ memory with files := memory.files.put path bytes } : Memory).follow directory names =
      .ok found := by
  induction names generalizing directory with
  | nil => exact h
  | cons name rest ih =>
    rw [follow] at h ⊢
    dsimp only at h ⊢
    -- the path goes through this directory, so the file is not written in its place
    split at h
    next => cases h
    next hfile =>
      split at h
      next => cases h
      next hdirectory =>
        have hne : path ≠ pathOf directory := by
          rintro rfl
          rw [hnew] at hdirectory
          exact hdirectory rfl
        rw [Keyed.get?_put, if_neg hne, if_neg hfile, if_neg hdirectory]
        split at h
        next hstay => rw [if_pos hstay]; exact ih h
        next hstay =>
          rw [if_neg hstay]
          split at h
          next hup => rw [if_pos hup]; exact ih h
          next hup =>
            rw [if_neg hup]
            split at h
            next => cases h
            next hshort => rw [if_neg hshort]; exact ih h

/-- A new file does not get into the way of a path that led somewhere. -/
theorem resolve_put (hnew : memory.directories.contains path = false)
    (h : memory.resolve other = .ok resolved) :
    ({ memory with files := memory.files.put path bytes } : Memory).resolve other =
      .ok resolved := by
  unfold resolve at h ⊢
  dsimp only at h ⊢
  split at h
  next => cases h
  next hzero =>
    rw [if_neg hzero]
    split at h
    next => cases h
    next hlong =>
      rw [if_neg hlong]
      -- what is checked first is the path alone; only following it looks at the files
      cases hfollow : memory.follow [] (Text.piecesOf '/'
        (if Text.startsWith "/" other then other else memory.workplace ++ "/" ++ other)) with
      | error e =>
        rw [hfollow] at h
        cases h
      | ok found =>
        rw [hfollow] at h
        rw [follow_put hnew hfollow]
        exact h

/-- A file is written where its path leads, unless that is a directory. -/
theorem write_eq_ok (h : memory.write path text = .ok after) :
    ∃ resolved, memory.resolve path = .ok resolved ∧
      memory.directories.contains resolved = false ∧
      after = { memory with files := memory.files.put resolved (Text.Utf8.encode text) } := by
  -- an error of the path, or a directory there, is not a success
  unfold write writeBytes at h
  cases hresolve : memory.resolve path with
  | error e =>
    rw [hresolve] at h
    cases h
  | ok resolved =>
    rw [hresolve] at h
    dsimp only [bind, Except.bind] at h
    split at h
    next => cases h
    next hnew => exact ⟨resolved, rfl, Bool.eq_false_iff.2 hnew, (Except.ok.inj h).symm⟩

/-- What is written is read back. -/
theorem read_of_write (h : memory.write path text = .ok after) : after.read path = .ok text := by
  obtain ⟨resolved, hresolve, hnew, rfl⟩ := write_eq_ok h
  unfold read readBytes
  rw [resolve_put hnew hresolve]
  simp [bind, Except.bind, pure, Except.pure, textOfFile, Text.Utf8.decode?_encode]

/-- A file that is written is no other file. -/
theorem read_of_write_ne {place : String} (h : memory.write path text = .ok after)
    (hpath : memory.resolve path = .ok resolved) (hother : memory.resolve other = .ok place)
    (hne : place ≠ resolved) : after.read other = memory.read other := by
  obtain ⟨found, hresolve, hnew, rfl⟩ := write_eq_ok h
  obtain rfl := Except.ok.inj (hpath.symm.trans hresolve)
  unfold read readBytes
  rw [resolve_put hnew hother, hother]
  simp only [bind, Except.bind, Keyed.get?_put, if_neg hne.symm]

/-! ## Actions that leave the files -/

/-- Nothing that can be read differs. -/
structure SameFiles (memory after : Memory) : Prop where
  files : after.files = memory.files
  directories : after.directories = memory.directories
  workplace : after.workplace = memory.workplace

theorem SameFiles.refl (memory : Memory) : memory.SameFiles memory := ⟨rfl, rfl, rfl⟩

theorem SameFiles.trans {last : Memory} (h : memory.SameFiles after) (h' : after.SameFiles last) :
    memory.SameFiles last :=
  ⟨h'.files.trans h.files, h'.directories.trans h.directories, h'.workplace.trans h.workplace⟩

theorem SameFiles.follow_eq (h : memory.SameFiles after) (directory names : List String) :
    after.follow directory names = memory.follow directory names := by
  induction names generalizing directory with
  | nil => rfl
  | cons name rest ih =>
    rw [follow, follow]
    simp only [h.files, h.directories, ih]

theorem SameFiles.read_eq (h : memory.SameFiles after) (path : String) :
    after.read path = memory.read path := by
  unfold read readBytes resolve
  simp only [h.follow_eq, h.files, h.directories, h.workplace]

/-- The action leaves all files as they were. -/
def Keeps {α : Type} (action : StateM Memory α) : Prop :=
  ∀ memory : Memory, memory.SameFiles (action.run memory).2

theorem keeps_pure {α : Type} (a : α) : Keeps (pure a : StateM Memory α) := SameFiles.refl

theorem Keeps.bind {α β : Type} {action : StateM Memory α} {next : α → StateM Memory β}
    (h : Keeps action) (hnext : ∀ a, Keeps (next a)) : Keeps (action >>= next) := by
  intro memory
  exact (h memory).trans (hnext (action.run memory).1 (action.run memory).2)

/-! Commands are actions that can fail. -/

section Fail

variable {α β : Type} {action : Action (StateM Memory) α} {next : α → Action (StateM Memory) β}

theorem keeps_ok (a : α) : Keeps (pure a : Action (StateM Memory) α).run := keeps_pure _

theorem keeps_throw (e : CommandError) : Keeps (throw e : Action (StateM Memory) α).run :=
  keeps_pure _

theorem Keeps.lift {action : StateM Memory α} (h : Keeps action) :
    Keeps (ExceptT.lift action : Action (StateM Memory) α).run :=
  h.bind fun _ => keeps_pure _

/-- An action that can fail goes on only if it has not failed. -/
theorem Keeps.andThen (h : Keeps action.run) (hnext : ∀ a, Keeps (next a).run) :
    Keeps (action >>= next).run := by
  rw [ExceptT.run_bind]
  refine Keeps.bind h fun result => ?_
  cases result with
  | ok a => exact hnext a
  | error e => exact keeps_pure _

/-- What did not fail did not fail in its first part. -/
theorem exists_of_andThen {b : β} {memory after : Memory}
    (h : (action >>= next).run.run memory = (.ok b, after)) :
    ∃ a middle, action.run.run memory = (.ok a, middle) ∧
      (next a).run.run middle = (.ok b, after) := by
  rw [ExceptT.run_bind, StateT.run_bind] at h
  cases hresult : action.run.run memory with
  | mk result middle =>
    rw [hresult] at h
    cases result with
    | ok a => exact ⟨a, middle, rfl, h⟩
    | error e => cases h

end Fail

end Memory

/-! ## Hosts -/

open Memory (Keeps)

/-- Reading, printing and recording leave all files as they were. -/
structure Host.ReadsOnly (host : Host (StateM Memory)) : Prop where
  read : ∀ path, Keeps (host.read path)
  print : ∀ text, Keeps (host.print text)
  tell : ∀ line, Keeps (host.tell line)
  log : ∀ event, Keeps (host.log event)

namespace Host.ReadsOnly

variable {host : Host (StateM Memory)} (h : host.ReadsOnly)
include h

theorem logAll (events : List Event) : Keeps (host.logAll events) := by
  induction events with
  | nil => exact Memory.keeps_pure _
  | cons event rest ih => exact (h.log event).bind fun _ => ih

theorem recorded {α : Type} (result : Traced α) : Keeps (host.recorded result).run :=
  ((h.logAll result.events).bind fun _ => Memory.keeps_pure _).lift

theorem attempt {α : Type} (result : Traced (Except ProgramError α)) :
    Keeps (host.attempt result).run := by
  refine (h.recorded result).andThen fun value => ?_
  cases value with
  | ok a => exact Memory.keeps_ok a
  | error e => exact Memory.keeps_throw _

theorem readFile (path : String) (error : String → CommandError) :
    Keeps (host.readFile path error).run := by
  refine (h.read path).lift.andThen fun result => ?_
  cases result with
  | ok text => exact Memory.keeps_ok text
  | error e => exact Memory.keeps_throw _

omit h in
/-- A host that records some events only reads as before. -/
theorem recordOnly (h : host.ReadsOnly) (isRecorded : Event → Bool) :
    { host with log := fun event => if isRecorded event then host.log event else pure () }.ReadsOnly
    where
  read := h.read
  print := h.print
  tell := h.tell
  log event := by
    dsimp only
    split
    · exact h.log event
    · exact Memory.keeps_pure _

end Host.ReadsOnly

namespace Memory

variable {interpret : List UInt8 → List String → StateM Memory ToolOutput}

theorem run_write (memory : Memory) (path text : String) :
    ((host interpret).write path text).run memory =
      ((match memory.write path text with
        | .ok written => (.ok (), written)
        | .error e => (.error e.reason, memory)) : Except String Unit × Memory) := by
  unfold host
  dsimp only
  rw [StateT.run_bind]
  simp only [StateT.run_get, pure_bind]
  cases memory.write path text <;> rfl

/-- A file that a command has written is read back. -/
theorem read_of_writeFile {other : Host (StateM Memory)} {memory after : Memory}
    {path text : String} (hwrite : other.write = (host interpret).write)
    (h : (other.writeFile path text).run.run memory = (.ok (), after)) :
    after.read path = .ok text := by
  unfold Host.writeFile at h
  rw [hwrite, ExceptT.run_bind, StateT.run_bind, ExceptT.run_lift, StateT.run_map, run_write] at h
  cases hmemory : memory.write path text with
  | error e =>
    -- the command has failed then
    rw [hmemory] at h
    cases h
  | ok written =>
    rw [hmemory] at h
    obtain rfl : written = after := congrArg Prod.snd h
    exact read_of_write hmemory

variable (interpret) in
/-- The host in memory changes no file when it reads, prints or records. -/
theorem readsOnly_host : (host interpret).ReadsOnly where
  read _ := SameFiles.refl
  print _ _ := ⟨rfl, rfl, rfl⟩
  tell _ _ := ⟨rfl, rfl, rfl⟩
  log _ := keeps_pure _

end Memory

/-! ## Commands -/

namespace Command

variable {host : Host (StateM Memory)}
  {interpret : List UInt8 → List String → StateM Memory ToolOutput}

section Keeps

variable (h : host.ReadsOnly)
include h

theorem keeps_load (program : Program) (files : List String) :
    Keeps (load host program files).run := by
  induction files generalizing program with
  | nil => exact Memory.keeps_ok _
  | cons path rest ih =>
    exact (h.readFile path _).andThen fun _ => (h.recorded _).andThen fun _ => ih _

/-- Reading and building a program leaves all files as they are. -/
theorem keeps_prepare (config : Config) (files : List String) (profile? : Option String) :
    Keeps (prepare host config files profile?).run := by
  refine (keeps_load h _ files).andThen fun _ => (h.attempt _).andThen fun _ =>
    (h.recorded _).andThen fun program => ?_
  -- a profile is one more file to read
  cases profile? with
  | none => exact Memory.keeps_ok _
  | some profile =>
    refine (h.readFile profile _).andThen fun text => (h.recorded _).andThen fun result => ?_
    obtain ⟨program, applied⟩ := result
    cases applied with
    | error e => exact Memory.keeps_throw _
    | ok applied =>
      dsimp only
      split
      · exact (h.tell _).lift.andThen fun _ => Memory.keeps_ok _
      · exact Memory.keeps_ok _

/-- Analyzing writes no file. -/
theorem keeps_analyzeFiles (files : List String) (estimate : EstimateOptions) :
    Keeps (analyzeFiles host files estimate).run := by
  refine (keeps_prepare h _ files _).andThen fun program => (h.tell _).lift.andThen fun _ =>
    (h.print _).lift.andThen fun _ => ?_
  dsimp only
  split
  · exact (h.tell _).lift
  · exact (h.tell _).lift.andThen fun _ => (h.tell _).lift

end Keeps

/-- A command line that asks for an analysis leaves all files as they were. -/
theorem keeps_run_analyze {words files : List String} {estimate : EstimateOptions}
    {verbosity : Verbosity} (hwords : ofWords words = .ok (.analyze files estimate, verbosity)) :
    Keeps (run (Memory.host interpret) words) := by
  have hhost := Memory.readsOnly_host interpret
  unfold run
  rw [hwords]
  dsimp only
  refine (keeps_analyzeFiles (hhost.recordOnly _) files estimate).bind fun result => ?_
  cases result with
  | ok => exact Memory.keeps_pure _
  | error e => exact (hhost.tell _).bind fun _ => Memory.keeps_pure _

variable (interpret) in
/-- After an export that did not fail, the output is a placement problem. -/
theorem read_of_exportProblem (h : host.ReadsOnly)
    (hwrite : host.write = (Memory.host interpret).write) {files : List String} {output : String}
    {estimate : EstimateOptions} {placement : PlacementOptions} {size : SizeOptions}
    {memory after : Memory}
    (hrun : (exportProblem host files output estimate placement size).run.run memory =
      (.ok (), after)) :
    ∃ problem : PlacementProblem, after.read output = .ok problem.mathprog := by
  unfold exportProblem at hrun
  -- the file is written when all that tools may change is done, and only lines are told after it
  obtain ⟨_, first, -, hrun⟩ := Memory.exists_of_andThen hrun
  obtain ⟨_, second, -, hrun⟩ := Memory.exists_of_andThen hrun
  obtain ⟨⟨problem, cache⟩, third, -, hrun⟩ := Memory.exists_of_andThen hrun
  obtain ⟨_, flushed, -, hrun⟩ := Memory.exists_of_andThen hrun
  obtain ⟨_, written, hwritten, hrun⟩ := Memory.exists_of_andThen hrun
  have hsame : written.SameFiles after := by
    have hkeeps := (h.tell ("✓ " ++ "Placement problem written")).lift.andThen fun _ =>
      (h.tell ("  → " ++ output)).lift
    have hlast : _ = after := congrArg Prod.snd hrun
    rw [← hlast]
    exact hkeeps written
  refine ⟨problem, ?_⟩
  rw [hsame.read_eq]
  exact Memory.read_of_writeFile hwrite hwritten

/-- A command line that asks for an export and goes well leaves a problem in its output. -/
theorem read_of_run_export {words files : List String} {output : String}
    {estimate : EstimateOptions} {placement : PlacementOptions} {size : SizeOptions}
    {verbosity : Verbosity} {memory after : Memory}
    (hwords : ofWords words = .ok (.exportData files output estimate placement size, verbosity))
    (hrun : (run (Memory.host interpret) words).run memory = (0, after)) :
    ∃ problem : PlacementProblem, after.read output = .ok problem.mathprog := by
  unfold run at hrun
  rw [hwords] at hrun
  dsimp only at hrun
  rw [StateT.run_bind] at hrun
  let recording : Host (StateM Memory) := { Memory.host interpret with
    log := fun event => if isRecorded verbosity event then (Memory.host interpret).log event
      else pure () }
  cases hresult :
      (exportProblem recording files output estimate placement size).run.run memory with
  | mk result middle =>
    have hperform : (perform recording
        (.exportData files output estimate placement size)).run.run memory =
      (result, middle) := hresult
    rw [hperform] at hrun
    cases result with
    | error e =>
      -- the status of a command that failed is one
      cases congrArg Prod.fst hrun
    | ok =>
      obtain rfl : middle = after := congrArg Prod.snd hrun
      exact read_of_exportProblem interpret ((Memory.readsOnly_host interpret).recordOnly _) rfl
        hresult

end Command

end RamOverlay
