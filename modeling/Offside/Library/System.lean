import Offside.Library.File

/-!
Functions on the working directory, the environment variables and the texts of paths.
-/

namespace Offside.Library

open Offside.Action

namespace System

def workingPath : Action String := do
  match (← disk).workingPath with
  | .ok path => return path
  | .error e => fault (.system e none)

def currentDirectory (_ : List Value) : Action Value := do return .string (← workingPath)

def changeDirectory : List Value → Action Value
  | [v] => do
    let path ← path "os_chdir" v
    changeDisk .entering path (·.enter path)
  | _ => fault .missingArgument

/-- The value of an environment variable, or else the default. -/
def getVariable : List Value → Action Value
  | v :: rest => do
    let name ← string "os_getenv" "name" v
    match (← get).getVariable name with
    | some value => return .string value
    | none => return rest.headD .none
  | _ => fault .missingArgument

def hasChar (c : Char) (s : String) : Bool := s.toList.contains c

def setVariable : List Value → Action Value
  | [name, value] => do
    let name ← string "os_setenv" "name" name
    let value ← string "os_setenv" "value" value
    if hasChar '\x00' name || hasChar '\x00' value then fault .nullByte
    if hasChar '=' name then fault .variableName
    if name.isEmpty then fault (.system .invalidArgument none)
    modify (·.setVariable name value)
    return .none
  | _ => fault .missingArgument

/-- Removes an environment variable; answers whether it was there. -/
def unsetVariable : List Value → Action Value
  | [name] => do
    let name ← string "os_unsetenv" "name" name
    let wasThere := ((← get).getVariable name).isSome
    modify (·.unsetVariable name)
    return .boolean wasThere
  | _ => fault .missingArgument

def environment (_ : List Value) : Action Value := do
  let sorted := (← get).environment.mergeSort fun a b => !decide (b.1 < a.1)
  newMapping (.ofEntries (sorted.map fun (name, value) => (.string name, .string value)))

def remove : List Value → Action Value
  | [v] => do
    let path ← path "os_remove" v
    changeDisk .removing path (·.remove path)
  | _ => fault .missingArgument

def makeDirectory : List Value → Action Value
  | [v] => do
    let path ← path "os_mkdir" v
    changeDisk .makingDirectory path (·.makeDirectory path)
  | _ => fault .missingArgument

def removeDirectory : List Value → Action Value
  | [v] => do
    let path ← path "os_rmdir" v
    changeDisk .removingDirectory path (·.removeDirectory path)
  | _ => fault .missingArgument

def joinPath (args : List Value) : Action Value := do
  let parts ← args.mapM (string "os_path_join" "part")
  if parts.isEmpty then fail (.noArgument "os_path_join")
  return .string (String.ofList (Path.join (parts.map String.toList)))

def asking (name : String) (ask : Disk → String → Bool) : Builtin :=
  ⟨name, some 1, none, fun
    | [v] => do
      let path ← path name v
      return .boolean (ask (← disk) path)
    | _ => fault .missingArgument⟩

def onText (name : String) (f : List Char → List Char) : Builtin :=
  ⟨name, some 1, none, fun
    | [v] => do return .string (String.ofList (f (← path name v).toList))
    | _ => fault .missingArgument⟩

def splitExtension : List Value → Action Value
  | [v] => do
    let (root, extension) := Path.splitExtension (← path "os_path_splitext" v).toList
    newList [.string (String.ofList root), .string (String.ofList extension)]
  | _ => fault .missingArgument

def absolutePath : List Value → Action Value
  | [v] => do
    let cs := (← path "os_path_abspath" v).toList
    let whole ← if Path.isAbsolute cs then pure cs
      else do pure (Path.append (← workingPath).toList cs)
    return .string (String.ofList (Path.normalize whole))
  | _ => fault .missingArgument

end System

def system : List Builtin := [
  ⟨"os_getcwd", some 0, none, System.currentDirectory⟩,
  ⟨"os_chdir", some 1, none, System.changeDirectory⟩,
  ⟨"os_getenv", some 1, some 2, System.getVariable⟩,
  ⟨"os_setenv", some 2, none, System.setVariable⟩,
  ⟨"os_unsetenv", some 1, none, System.unsetVariable⟩,
  ⟨"os_environ", some 0, none, System.environment⟩,
  ⟨"os_remove", some 1, none, System.remove⟩,
  ⟨"os_mkdir", some 1, none, System.makeDirectory⟩,
  ⟨"os_rmdir", some 1, none, System.removeDirectory⟩,
  ⟨"os_path_join", none, none, System.joinPath⟩,
  System.asking "os_path_exists" Disk.isThere,
  System.asking "os_path_isdir" Disk.isDir,
  System.asking "os_path_isfile" Disk.isFile,
  System.onText "os_path_basename" Path.baseName,
  System.onText "os_path_dirname" Path.dirName,
  ⟨"os_path_splitext", some 1, none, System.splitExtension⟩,
  ⟨"os_path_abspath", some 1, none, System.absolutePath⟩,
  System.onText "os_path_normpath" Path.normalize]

end Offside.Library
