import RamOverlay.Size.CacheText
import RamOverlay.Size.Oracle

/-!
# Size caches

Sizes that were found out before, kept in a file between runs. A cache knows whether it holds sizes
that the file may lack. Writing it back adds the sizes of the file to it first, so that runs do not
lose each other's sizes; where both have a size, that of the cache stays.
-/

namespace RamOverlay

/-- Why the file of a cache cannot be used. -/
inductive CacheError where
  | file (reason : String)
  | corrupt
  deriving DecidableEq, Repr

def CacheError.message : CacheError → String
  | file reason => "IO error: " ++ reason
  | corrupt => "Corrupt size cache: expected an object of sizes"

/-- The sizes that are known, and whether the file knows them too. -/
structure SizeCache where
  entries : CacheText.Sizes := []
  /-- Whether sizes were added since the cache was loaded or written back. -/
  dirty : Bool := false
  deriving DecidableEq, Repr

namespace SizeCache

/-- The sizes in the text of a file; a missing file holds none. -/
def entriesOf (file? : Option String) : Except CacheError CacheText.Sizes :=
  match file? with
  | none => .ok []
  | some text =>
    match CacheText.read? text with
    | some sizes => .ok sizes
    | none => .error .corrupt

/-- A cache with the sizes of its file; no file is as good as one without sizes. -/
def load (file? : Option String) : Except CacheError SizeCache :=
  (entriesOf file?).map fun entries => { entries }

def get? (cache : SizeCache) (insn : String) : Option Nat := cache.entries.get? insn

/-- Adds a size. A size that is known already does not make the cache dirty. -/
def put (cache : SizeCache) (insn : String) (size : Nat) : SizeCache :=
  if cache.get? insn = some size then cache
  else { entries := cache.entries.insert insn size, dirty := true }

@[simp] theorem get?_put (cache : SizeCache) (insn other : String) (size : Nat) :
    (cache.put insn size).get? other = if insn = other then some size else cache.get? other := by
  unfold put
  split
  · split <;> simp_all
  · simp [get?]

def size (cache : SizeCache) : Nat := cache.entries.length

/-- The cache with sizes for the instructions that it has none for. -/
def absorb (cache : SizeCache) (sizes : CacheText.Sizes) : SizeCache :=
  { cache with
    entries := sizes.foldl (fun entries (insn, size) =>
      if (entries.get? insn).isSome then entries else entries.insert insn size) cache.entries }

/-- Writes the cache back: the cache after that, and the new text of the file. Nothing is written
if nothing was added. -/
def flush (cache : SizeCache) (file? : Option String) :
    Except CacheError (SizeCache × Option String) :=
  if cache.dirty then do
    let sizes ← entriesOf file?
    let merged := cache.absorb sizes
    return ({ merged with dirty := false }, some (CacheText.write merged.entries))
  else .ok (cache, none)

end SizeCache

/-- A cache in use, with counts of the queries that it could and could not answer. -/
structure Memo where
  cache : SizeCache := {}
  hits : UInt64 := 0
  misses : UInt64 := 0
  deriving DecidableEq, Repr

/-- An oracle that looks into a cache before it asks another one, and keeps what that answers. -/
def SizeOracle.cached {m : Type → Type} [Monad m] (oracle : SizeOracle m) :
    SizeOracle (StateT Memo m) := fun query => ExceptT.mk fun memo =>
  match memo.cache.get? query.text with
  | some size => pure (.ok size, { memo with hits := memo.hits + 1 })
  | none => do
    let memo := { memo with misses := memo.misses + 1 }
    match ← (oracle query).run with
    | .ok size => pure (.ok size, { memo with cache := memo.cache.put query.text size })
    | .error e => pure (.error e, memo)

end RamOverlay
