import Offside.Text.Search

/-!
Paths as texts. Slashes divide a path; a path that starts with one is absolute. The functions
here look at the text alone.
-/

namespace Offside.Path

def isAbsolute (path : List Char) : Bool := path.head? == some '/'

def endsInSlash (path : List Char) : Bool := path.getLast? == some '/'

def baseName (path : List Char) : List Char :=
  (path.reverse.takeWhile (· != '/')).reverse

/-- What stands before the last slash, the slash included. -/
def beforeBase (path : List Char) : List Char :=
  (path.reverse.dropWhile (· != '/')).reverse

def dropEndSlashes (path : List Char) : List Char :=
  (path.reverse.dropWhile (· == '/')).reverse

/-- The part before the base name, without slashes at its end unless it has nothing else. -/
def dirName (path : List Char) : List Char :=
  let head := beforeBase path
  if head.all (· == '/') then head else dropEndSlashes head

/-- Appends a path to another one; an absolute one takes its place. -/
def append (path next : List Char) : List Char :=
  if isAbsolute next then next
  else if path.isEmpty || endsInSlash path then path ++ next
  else path ++ '/' :: next

def join (parts : List (List Char)) : List Char :=
  match parts with
  | [] => []
  | first :: rest => rest.foldl append first

/-- Splits off the extension: the last dot of the base name and what follows it. Dots at the start
of the base name do not count. -/
def splitExtension (path : List Char) : List Char × List Char :=
  let base := baseName path
  let dots := base.takeWhile (· == '.')
  let name := base.drop dots.length
  if name.contains '.' then
    let extension := '.' :: (name.reverse.takeWhile (· != '.')).reverse
    (path.take (path.length - extension.length), extension)
  else (path, [])

/-- The names on a path; nothing stands between two slashes in a row. -/
def components (path : List Char) : List (List Char) :=
  (Text.splitOn ['/'] path).filter (!·.isEmpty)

/-- Adds a name to a normal path, whose names are given last one first. -/
def normalStep (absolute : Bool) (names : List (List Char)) (name : List Char) :
    List (List Char) :=
  if name = ['.'] then names
  else if name = ['.', '.'] then
    match names with
    | [] => if absolute then [] else [name]
    | last :: before => if last = ['.', '.'] then name :: names else before
  else name :: names

/-- The slashes a path starts with; exactly two stay two, and any other number counts as one. -/
def leadingSlashes (path : List Char) : List Char :=
  let lead := path.takeWhile (· == '/')
  if lead.length = 2 then lead else lead.take 1

def ofNames (slashes : List Char) (names : List (List Char)) : List Char :=
  let path := slashes ++ Text.joinWith ['/'] names
  if path.isEmpty then ['.'] else path

def tidy (path : List Char) : List Char :=
  ofNames (leadingSlashes path) ((components path).filter (· ≠ ['.']))

/-- A path without superfluous slashes, dots and steps back. -/
def normalize (path : List Char) : List Char :=
  ofNames (leadingSlashes path)
    ((components path).foldl (normalStep (isAbsolute path)) []).reverse

end Offside.Path
