import Offside.Fault
import Offside.Disk.Path

/-!
A file system. Files and directories are numbered objects, number 0 being the root; a directory
knows its parent and the objects under its names. A file that lost its name, or a directory that
was removed while it was in use, stays an object, so what refers to it stays valid.
-/

namespace Offside

inductive Inode where
  | file (content : ByteArray)
  | directory (parent : Nat) (entries : List (String × Nat)) (removed : Bool)
  deriving Inhabited

structure Disk where
  inodes : Array Inode
  /-- The working directory. -/
  here : Nat
  deriving Inhabited

namespace Disk

abbrev Result := Except SystemError

def longestName : Nat := 255

def longestPath : Nat := 4095

def inode (d : Disk) (i : Nat) : Inode := d.inodes[i]?.getD (.file .empty)

def isDirectory (d : Disk) (i : Nat) : Bool :=
  match d.inode i with
  | .directory .. => true
  | .file _ => false

def entries (d : Disk) (i : Nat) : List (String × Nat) :=
  match d.inode i with
  | .directory _ entries _ => entries
  | .file _ => []

def content (d : Disk) (i : Nat) : ByteArray :=
  match d.inode i with
  | .file content => content
  | .directory .. => .empty

def parent (d : Disk) (i : Nat) : Nat :=
  match d.inode i with
  | .directory parent _ _ => parent
  | .file _ => 0

def isRemoved (d : Disk) (i : Nat) : Bool :=
  match d.inode i with
  | .directory _ _ removed => removed
  | .file _ => false

def entry? (d : Disk) (dir : Nat) (name : String) : Option Nat :=
  ((d.entries dir).find? (·.1 == name)).map (·.2)

def walk (d : Disk) : Nat → List String → Result Nat
  | i, [] => .ok i
  | i, name :: rest =>
    if !d.isDirectory i then .error .notADirectory
    else if name = "." then d.walk i rest
    else if name = ".." then d.walk (d.parent i) rest
    else if longestName < name.utf8ByteSize then .error .nameTooLong
    else match d.entry? i name with
      | some next => d.walk next rest
      | none => .error .noEntry

def start (d : Disk) (path : String) : Nat := if Path.isAbsolute path.toList then 0 else d.here

def names (path : String) : List String := (Path.components path.toList).map String.ofList

def checkPath (path : String) : Result Unit :=
  if path.toList.contains '\x00' then .error .nullCharacter
  else if path.isEmpty then .error .noEntry
  else if longestPath < path.utf8ByteSize then .error .nameTooLong
  else .ok ()

def endsInSlash (path : String) : Bool := Path.endsInSlash path.toList

/-- The object a path denotes. A slash at the end asks for a directory. -/
def resolve (d : Disk) (path : String) : Result Nat := do
  checkPath path
  let names := names path
  d.walk (d.start path) (if endsInSlash path then names ++ ["."] else names)

/-- The last name of a path: an ordinary one, a step that stays or goes back, or no name. -/
inductive Last where
  | name (s : String)
  | dot
  | dotDot
  | root
  deriving DecidableEq, Repr

def checkName (name : String) : Result Unit :=
  if longestName < name.utf8ByteSize then .error .nameTooLong else .ok ()

/-- The last step of a path and the directory in which it is to be taken. -/
def lastStep (d : Disk) (path : String) : Result (Nat × Last) := do
  checkPath path
  match (names path).getLast? with
  | none => return (0, .root)
  | some last =>
    let dir ← d.walk (d.start path) (names path).dropLast
    if !d.isDirectory dir then .error .notADirectory
    else if last = "." then return (dir, .dot)
    else if last = ".." then return (dir, .dotDot)
    else return (dir, .name last)

/-- The last step of a path, a name in it being one that a directory can hold. -/
def place (d : Disk) (path : String) : Result (Nat × Last) := do
  let (dir, last) ← d.lastStep path
  if let .name name := last then checkName name
  return (dir, last)

def setInode (d : Disk) (i : Nat) (node : Inode) : Disk :=
  { d with inodes := d.inodes.setIfInBounds i node }

/-- Puts an object under a name, in place of what had it. -/
def link (d : Disk) (dir : Nat) (name : String) (i : Nat) : Disk :=
  match d.inode dir with
  | .directory parent entries removed =>
    let entries :=
      if entries.any (·.1 == name) then
        entries.map fun e => if e.1 == name then (name, i) else e
      else entries ++ [(name, i)]
    d.setInode dir (.directory parent entries removed)
  | .file _ => d

def unlink (d : Disk) (dir : Nat) (name : String) : Disk :=
  match d.inode dir with
  | .directory parent entries removed =>
    d.setInode dir (.directory parent (entries.filter (·.1 != name)) removed)
  | .file _ => d

def create (d : Disk) (dir : Nat) (name : String) (node : Inode) : Nat × Disk :=
  let i := d.inodes.size
  (i, { d with inodes := d.inodes.push node }.link dir name i)

/-- Marks a directory as removed. -/
def retire (d : Disk) (i : Nat) : Disk :=
  match d.inode i with
  | .directory parent entries _ => d.setInode i (.directory parent entries true)
  | .file _ => d

/-- The object is below the directory `dir` or is itself it, as seen from at most `fuel` levels. -/
def isBelow (d : Disk) (dir : Nat) : Nat → Nat → Bool
  | 0, _ => false
  | fuel + 1, i => i == dir || (i != 0 && d.isBelow dir fuel (d.parent i))

/-- The names from the root to a directory, as seen from at most `fuel` levels. -/
def namesTo (d : Disk) : Nat → Nat → List String
  | 0, _ => []
  | fuel + 1, i =>
    if i = 0 then []
    else
      let up := d.parent i
      let name := ((d.entries up).find? (·.2 == i)).map (·.1)
      d.namesTo fuel up ++ [name.getD ""]

/-- An empty file system whose working directory has the given names from the root on. -/
def ofNames (names : List String) : Disk :=
  names.foldl
    (fun d name =>
      let (i, d) := d.create d.here name (.directory d.here [] false)
      { d with here := i })
    ⟨#[.directory 0 [] false], 0⟩

end Disk

end Offside
