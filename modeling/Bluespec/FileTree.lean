namespace Bluespec

inductive FileNode where
  | file (bytes : ByteArray)
  | directory

/-- Files and directories, each under the names on the way to it from the root. -/
structure FileTree where
  workingDirectory : List String
  nodes : List (List String × FileNode)

inductive ReadError where
  | absent
  | throughFile
  | isDirectory
  | nameTooLong
  | hasNul
  | notText
deriving DecidableEq, Repr

def ReadError.message : ReadError → String
  | absent => "No such file or directory (os error 2)"
  | throughFile => "Not a directory (os error 20)"
  | isDirectory => "Is a directory (os error 21)"
  | nameTooLong => "File name too long (os error 36)"
  | hasNul => "file name contained an unexpected NUL byte"
  | notText => "stream did not contain valid UTF-8"

namespace FileTree

def isAbsolute (path : String) : Bool := path.startsWith "/"

def join (dir path : String) : String :=
  if isAbsolute path then path
  else if dir.isEmpty || dir.endsWith "/" then dir ++ path
  else dir ++ "/" ++ path

def components (path : String) : List String := path.splitToList (· == '/')

/-- The directories that lead to the working directory need no entry. -/
def node? (t : FileTree) (names : List String) : Option FileNode :=
  if names.isPrefixOf t.workingDirectory then some .directory else t.nodes.lookup names

def nameLimit : Nat := 255

def pathLimit : Nat := 4095

/-- Follow one name of a path. Only a directory can be left, even by an empty name, and a name
that is too long is refused before it is looked up. -/
def step (t : FileTree) (place : List String) (name : String) : Except ReadError (List String) :=
  match t.node? place with
  | none => .error .absent
  | some (.file _) => .error .throughFile
  | some .directory =>
    if name = "" ∨ name = "." then .ok place
    else if name = ".." then .ok place.dropLast
    else if nameLimit < name.utf8ByteSize then .error .nameTooLong
    else if (t.node? (place ++ [name])).isNone then .error .absent
    else .ok (place ++ [name])

def resolve (t : FileTree) (path : String) : Except ReadError (List String) :=
  if path.toList.contains '\x00' then .error .hasNul
  else if path.isEmpty then .error .absent
  else if pathLimit < path.utf8ByteSize then .error .nameTooLong
  else (components path).foldlM t.step (if isAbsolute path then [] else t.workingDirectory)

def isFile (t : FileTree) (path : String) : Bool :=
  match t.resolve path with
  | .error _ => false
  | .ok place => t.node? place matches some (.file _)

def read (t : FileTree) (path : String) : Except ReadError String := do
  match t.node? (← t.resolve path) with
  | some (.file bytes) =>
    match String.fromUTF8? bytes with
    | some text => return text
    | none => throw .notText
  | some .directory => throw .isDirectory
  | none => throw .absent

end FileTree

end Bluespec
