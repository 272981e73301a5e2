/-!
Reading files. A file tree stands for the files that a program can see; a path is resolved in it
component by component from a current directory, and reading answers the bytes of a file or the
reason why there are none.
-/

namespace ErDiagram.Cli

/-- Why a file cannot be read as text: the number under which the operating system refuses, or
bytes that are no text. -/
inductive ReadError where
  | system (number : Nat)
  | notUtf8
  deriving DecidableEq

namespace ReadError

def notFound : ReadError :=
  .system 2

def notADirectory : ReadError :=
  .system 20

def isADirectory : ReadError :=
  .system 21

/-- The path, or a name in it, is longer than any may be. -/
def nameTooLong : ReadError :=
  .system 36

/-- What Linux calls the errors that opening or reading a file may meet. -/
def systemText : Nat → String
  | 1 => "Operation not permitted"
  | 2 => "No such file or directory"
  | 5 => "Input/output error"
  | 6 => "No such device or address"
  | 12 => "Cannot allocate memory"
  | 13 => "Permission denied"
  | 20 => "Not a directory"
  | 21 => "Is a directory"
  | 22 => "Invalid argument"
  | 23 => "Too many open files in system"
  | 24 => "Too many open files"
  | 36 => "File name too long"
  | 40 => "Too many levels of symbolic links"
  | number => "Unknown error " ++ number.repr

def message : ReadError → String
  | .system number => systemText number ++ " (os error " ++ number.repr ++ ")"
  | .notUtf8 => "stream did not contain valid UTF-8"

end ReadError

def decodeText (bytes : ByteArray) : Except ReadError String :=
  match String.fromUTF8? bytes with
  | some text => .ok text
  | none => .error .notUtf8

/-- A file with its bytes, or a directory with its entries. -/
inductive FileTree where
  | file (bytes : ByteArray)
  | directory (entries : List (String × FileTree))

namespace FileTree

def maxPath : Nat :=
  4095

def maxName : Nat :=
  255

/-- Follows the components of a path. The trail holds what the path has led through below the root,
innermost first; nothing is above the root. An empty component only asks that a directory stands
before it. -/
def follow (trail : List FileTree) (root : FileTree) :
    List String → Except ReadError FileTree
  | [] => .ok (trail.headD root)
  | component :: components =>
    match trail.headD root with
    | .file _ => .error .notADirectory
    | .directory entries =>
      if component = "" ∨ component = "." then follow trail root components
      else if component = ".." then follow trail.tail root components
      else if maxName < component.utf8ByteSize then .error .nameTooLong
      else
        match entries.lookup component with
        | some tree => follow (tree :: trail) root components
        | none => .error .notFound

/-- What a path leads to. A path that starts with a slash is followed from the root, any other from
the directory at the end of the trail. -/
def resolve (trail : List FileTree) (root : FileTree) (path : String) :
    Except ReadError FileTree :=
  if maxPath < path.utf8ByteSize then .error .nameTooLong
  else
    match path.toList with
    | [] => .error .notFound
    | first :: _ =>
      follow (if first = '/' then [] else trail) root (path.splitOn "/")

/-- The text of the file that a path leads to. -/
def readText (trail : List FileTree) (root : FileTree) (path : String) :
    Except ReadError String :=
  match resolve trail root path with
  | .ok (.file bytes) => decodeText bytes
  | .ok (.directory _) => .error .isADirectory
  | .error error => .error error

end FileTree
end ErDiagram.Cli
