import Offside.Builtin
import Offside.Text.Utf8

/-!
Functions on files and directories.
-/

namespace Offside.Library

open Offside.Action

/-- Passes a refusal of the file system on, with what was being done to which path. -/
def ofDisk {α : Type} (deed : Deed) (path : String) : Disk.Result α → Action α
  | .ok a => pure a
  | .error .nullCharacter => fault .nullByte
  | .error e => fail (.refused deed path e)

def disk : Action Disk := do return (← get).disk

def changeDisk (deed : Deed) (path : String) (change : Disk → Disk.Result Disk) : Action Value := do
  let changed ← ofDisk deed path (change (← disk))
  modify fun w => { w with disk := changed }
  return .none

/-- Writes a text to a file, which is opened before the text is encoded. -/
def changeText (path text : String) (put : Disk → ByteArray → Disk.Result Disk) : Action Value :=
  match Text.encodeUtf8 text with
  | .ok bytes => changeDisk .writing path (put · bytes)
  | .error e => do
    discard (changeDisk .writing path (put · .empty))
    fault (.surrogates e)

def path (builtin : String) (v : Value) : Action String := string builtin "path" v

namespace File

def read : List Value → Action Value
  | [v] => do
    let path ← path "file_read" v
    match (← disk).read path with
    | .error .noEntry => fail (.fileMissing path)
    | result =>
      match Text.readText (← ofDisk .reading path result) with
      | .ok text => return .string text
      | .error _ => fail (.undecodable path)
  | _ => fault .missingArgument

def write : List Value → Action Value
  | [v, content] => do
    let path ← path "file_write" v
    let content ← string "file_write" "content" content
    changeText path content fun disk bytes => disk.write path bytes
  | _ => fault .missingArgument

def append : List Value → Action Value
  | [v, content] => do
    let path ← path "file_append" v
    let content ← string "file_append" "content" content
    changeText path content fun disk bytes => disk.append path bytes
  | _ => fault .missingArgument

def delete : List Value → Action Value
  | [v] => do
    let path ← path "file_delete" v
    match (← disk).remove path with
    | .error .noEntry => return .boolean false
    | result => do
      let changed ← ofDisk .deleting path result
      modify fun w => { w with disk := changed }
      return .boolean true
  | _ => fault .missingArgument

def isThere : List Value → Action Value
  | [v] => do
    let path ← path "file_exists" v
    return .boolean ((← disk).isFile path)
  | _ => fault .missingArgument

def rename : List Value → Action Value
  | [old, new] => do
    let old ← string "file_rename" "old path" old
    let new ← string "file_rename" "new path" new
    changeDisk .moving old (·.rename old new)
  | _ => fault .missingArgument

def copy : List Value → Action Value
  | [source, target] => do
    let source ← string "file_copy" "source path" source
    let target ← string "file_copy" "destination path" target
    changeDisk .copying source (·.copy source target)
  | _ => fault .missingArgument

def list : List Value → Action Value
  | [v] => do
    let path ← path "dir_list" v
    newList ((← ofDisk .listing path ((← disk).list path)).map .string)
  | _ => fault .missingArgument

def createDirectory : List Value → Action Value
  | [v] => do
    let path ← path "dir_create" v
    let (trouble, changed) := Disk.makeDirectories (path.length + 1) path (← disk)
    modify fun w => { w with disk := changed }
    match trouble with
    | none => return .none
    | some e => ofDisk .creating path (.error e)
  | _ => fault .missingArgument

def isDirectory : List Value → Action Value
  | [v] => do
    let path ← path "dir_exists" v
    return .boolean ((← disk).isDir path)
  | _ => fault .missingArgument

end File

def files : List Builtin := [
  ⟨"file_read", some 1, none, File.read⟩,
  ⟨"file_write", some 2, none, File.write⟩,
  ⟨"file_append", some 2, none, File.append⟩,
  ⟨"file_delete", some 1, none, File.delete⟩,
  ⟨"file_exists", some 1, none, File.isThere⟩,
  ⟨"file_rename", some 2, none, File.rename⟩,
  ⟨"file_copy", some 2, none, File.copy⟩,
  ⟨"dir_list", some 1, none, File.list⟩,
  ⟨"dir_create", some 1, none, File.createDirectory⟩,
  ⟨"dir_exists", some 1, none, File.isDirectory⟩]

end Offside.Library
