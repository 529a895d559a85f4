import Offside.Disk

/-!
Operations on the file system. Each either succeeds or refuses with the first error that the
system finds on the way; a refused operation changes nothing.
-/

namespace Offside.Disk

def lookup? (d : Disk) (path : String) : Option Nat :=
  match d.resolve path with
  | .ok i => some i
  | .error _ => none

def isThere (d : Disk) (path : String) : Bool := (d.lookup? path).isSome

def isDir (d : Disk) (path : String) : Bool := (d.lookup? path).any d.isDirectory

def isFile (d : Disk) (path : String) : Bool := (d.lookup? path).any (!d.isDirectory ·)

def openFile (d : Disk) (path : String) : Result Nat := do
  let i ← d.resolve path
  if d.isDirectory i then .error .isADirectory else return i

/-- Opens a file for writing; it is created if it is not there. -/
def openToWrite (d : Disk) (path : String) : Result (Nat × Disk) := do
  let (dir, last) ← d.lastStep path
  match last with
  | .name name =>
    if endsInSlash path then .error .isADirectory
    else
      checkName name
      match d.entry? dir name with
      | some i => if d.isDirectory i then .error .isADirectory else return (i, d)
      | none =>
        if d.isRemoved dir then .error .noEntry else return d.create dir name (.file .empty)
  | _ => .error .isADirectory

def read (d : Disk) (path : String) : Result ByteArray := do
  return d.content (← d.openFile path)

def write (d : Disk) (path : String) (bytes : ByteArray) : Result Disk := do
  let (i, d) ← d.openToWrite path
  return d.setInode i (.file bytes)

def append (d : Disk) (path : String) (bytes : ByteArray) : Result Disk := do
  let (i, d) ← d.openToWrite path
  return d.setInode i (.file (d.content i ++ bytes))

def list (d : Disk) (path : String) : Result (List String) := do
  let i ← d.resolve path
  if !d.isDirectory i then .error .notADirectory
  else if d.isRemoved i then .error .noEntry
  else return ((d.entries i).map (·.1)).mergeSort fun a b => !decide (b < a)

def remove (d : Disk) (path : String) : Result Disk := do
  let (dir, last) ← d.place path
  match last with
  | .name name =>
    match d.entry? dir name with
    | none => .error .noEntry
    | some i =>
      if d.isDirectory i then .error .isADirectory
      else if endsInSlash path then .error .notADirectory
      else return d.unlink dir name
  | _ => .error .isADirectory

def makeDirectory (d : Disk) (path : String) : Result Disk := do
  let (dir, last) ← d.place path
  match last with
  | .name name =>
    if (d.entry? dir name).isSome then .error .alreadyThere
    else if d.isRemoved dir then .error .noEntry
    else return (d.create dir name (.directory dir [] false)).2
  | _ => .error .alreadyThere

def removeDirectory (d : Disk) (path : String) : Result Disk := do
  let (dir, last) ← d.place path
  match last with
  | .dot => .error .invalidArgument
  | .dotDot => .error .notEmpty
  | .root => .error .busy
  | .name name =>
    match d.entry? dir name with
    | none => .error .noEntry
    | some i =>
      if !d.isDirectory i then .error .notADirectory
      else if !(d.entries i).isEmpty then .error .notEmpty
      else return (d.unlink dir name).retire i

/-- Makes a directory and those above it that are not there yet. What was made stays even if a
later step is refused. -/
def makeDirectories : Nat → String → Disk → Option SystemError × Disk
  | 0, _, d => (none, d)
  | fuel + 1, path, d =>
    let cs := path.toList
    let cs' := if (Path.baseName cs).isEmpty then Path.dirName cs else cs
    let head := String.ofList (Path.dirName cs')
    let tail := Path.baseName cs'
    let (trouble, d, done) :=
      if !head.isEmpty && !tail.isEmpty && !d.isThere head then
        match makeDirectories fuel head d with
        | (some .alreadyThere, d) | (none, d) => (none, d, tail == ['.'])
        | (some e, d) => (some e, d, true)
      else (none, d, false)
    if done then (trouble, d)
    else match d.makeDirectory path with
      | .ok d => (none, d)
      | .error e => if d.isDir path then (none, d) else (some e, d)

/-- Moves an object. What is replaced must be of its sort, and a directory must be empty. -/
def rename (d : Disk) (source target : String) : Result Disk := do
  if (source ++ target).toList.contains '\x00' then .error .nullCharacter
  let (sourceDir, sourceLast) ← d.lastStep source
  let (targetDir, targetLast) ← d.lastStep target
  match sourceLast, targetLast with
  | .name old, .name new =>
    checkName old
    match d.entry? sourceDir old with
    | none => .error .noEntry
    | some i =>
      checkName new
      let moves := d.isDirectory i
      if !moves && (endsInSlash source || endsInSlash target) then .error .notADirectory
      else if moves && d.isBelow i d.inodes.size targetDir then .error .invalidArgument
      else
        let moved (d : Disk) : Disk :=
          let d := (d.unlink sourceDir old).link targetDir new i
          match d.inode i with
          | .directory _ entries removed => d.setInode i (.directory targetDir entries removed)
          | .file _ => d
        match d.entry? targetDir new with
        | none => if d.isRemoved targetDir then .error .noEntry else return moved d
        | some j =>
          if i = j then return d
          else if d.isDirectory j && d.isBelow j d.inodes.size sourceDir then .error .notEmpty
          else if moves && !d.isDirectory j then .error .notADirectory
          else if !moves && d.isDirectory j then .error .isADirectory
          else if !(d.entries j).isEmpty then .error .notEmpty
          else return moved (d.retire j)
  | _, _ => .error .busy

/-- Copies a file, into a directory under the same name if the target is one. A target in a
directory that is not there, or the file itself, is refused without a reason. -/
def copy (d : Disk) (source target : String) : Result Disk := do
  let target :=
    if d.isDir target then
      String.ofList (Path.join [target.toList, Path.baseName source.toList])
    else target
  if target.toList.contains '\x00' then .error .nullCharacter
  let same := match d.lookup? source, d.lookup? target with
    | some i, some j => i == j
    | _, _ => false
  if same then .error .unexplained
  let bytes ← d.read source
  match d.write target bytes with
  | .error .isADirectory =>
    if d.isThere target then .error .isADirectory else .error .unexplained
  | result => result

def enter (d : Disk) (path : String) : Result Disk := do
  let i ← d.resolve path
  if d.isDirectory i then return { d with here := i } else .error .notADirectory

def workingPath (d : Disk) : Result String :=
  if d.isRemoved d.here then .error .noEntry
  else .ok ("/" ++ "/".intercalate (d.namesTo d.inodes.size d.here))

/-- Writes bytes into a file at an offset; a gap before them is filled with zeros. -/
def writeAt (d : Disk) (i offset : Nat) (bytes : ByteArray) : Disk :=
  let old := d.content i
  let gap : ByteArray := ⟨Array.replicate (offset - old.size) 0⟩
  let before := old.extract 0 offset ++ gap
  d.setInode i (.file (before ++ bytes ++ old.extract (offset + bytes.size) old.size))

end Offside.Disk
