import Offside.Command

/-!
The program. It takes the files below the working directory and the environment variables into a
world, runs the command in it, and brings what has changed back. Input is read only when the
command asks for it: the command is run again with every further line, and what it prints anew is
shown. Whoever builds the program supplies the parser of the reference grammar.
-/

namespace Offside.Main

/-- Takes what is in a directory into the disk, links apart. -/
partial def load (path : String) (dir : Nat) (disk : Disk) : IO Disk := do
  let mut disk := disk
  for entry in ← (← IO.FS.realPath path).readDir do
    let whole := entry.path.toString
    if (← IO.FS.realPath whole).toString == whole then
      if ← entry.path.isDir then
        let (i, next) := disk.create dir entry.fileName (.directory dir [] false)
        disk ← load whole i next
      else
        disk := (disk.create dir entry.fileName (.file (← IO.FS.readBinFile whole))).2
  return disk

partial def store (path : String) (dir : Nat) (old new : Disk) : IO Unit := do
  for (name, i) in old.entries dir do
    if !(new.entries dir).contains (name, i) then
      let whole := path ++ "/" ++ name
      if old.isDirectory i then IO.FS.removeDirAll whole else IO.FS.removeFile whole
  for (name, i) in new.entries dir do
    let whole := path ++ "/" ++ name
    let there := (old.entries dir).contains (name, i)
    if new.isDirectory i then
      if !there then IO.FS.createDir whole
      store whole i (if there then old else .ofNames []) new
    else if !there || old.content i != new.content i then
      IO.FS.writeBinFile whole (new.content i)

/-- The environment variables as the system lists them. -/
def environment : IO (List (String × String)) := do
  let bytes ← try IO.FS.readBinFile "/proc/self/environ" catch _ => pure .empty
  let entries := ((String.fromUTF8? bytes).getD "").splitOn "\x00"
  return entries.filterMap fun entry =>
    match entry.splitOn "=" with
    | name :: value@(_ :: _) => some (name, "=".intercalate value)
    | _ => none

/-- The part of a text after another text that it starts with. -/
def beyond (shown text : String) : String := String.ofList (text.toList.drop shown.length)

def reveal (shown printed : String × String) : IO Unit := do
  (← IO.getStdout).putStr (beyond shown.1 printed.1)
  (← IO.getStdout).flush
  (← IO.getStderr).putStr (beyond shown.2 printed.2)

/-- The code of an ending, and what is still to be said about it. -/
def closing : Command.Ending → UInt32 × String
  | .failed => (1, "")
  | .misused m => (2, Command.usageText ++ m.report ++ "\n")
  | .faulted f => (1, f.message ++ "\n")
  | .starved => (1, "the program does not end\n")

partial def converse (lark : Reference.Lark) (args : List String) (world : World)
    (shown : String × String) : IO (UInt32 × World) := do
  let (code, last, w) := match Command.run lark args world with
    | .ok _ w => ((0 : UInt32), "", w)
    | .error e w => ((closing e).1, (closing e).2, w)
  match w.exhausted with
  | some printed =>
    reveal shown printed
    let line ← (← IO.getStdin).getLine
    if line.isEmpty then
      reveal printed (w.output, w.errors ++ last)
      return (code, w)
    else converse lark args { world with input := world.input ++ line.toList } printed
  | none =>
    reveal shown (w.output, w.errors ++ last)
    return (code, w)

def program (lark : Reference.Lark) (args : List String) : IO UInt32 := do
  let here := (← IO.FS.realPath ".").toString
  let place := Disk.ofNames ((Path.components here.toList).map String.ofList)
  let disk ← load here place.here place
  let world : World :=
    { heap := .empty, input := [], output := "", errors := "", disk
      environment := ← environment }
  let (code, w) ← converse lark args world ("", "")
  store here place.here disk w.disk
  return code

end Offside.Main
