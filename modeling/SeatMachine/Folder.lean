/-!
# Folders

A folder is what a program sees of the files around it: places, below the working directory or
below the root, at which files and directories stand. Reading and writing follow a path one name at
a time, and fail as an operating system would: the first name that cannot be followed decides.
-/
namespace SeatMachine

/-- Why a file could not be read or written. -/
inductive FileFault where
  | notFound
  | isDirectory
  | notDirectory
  /-- A name, or the path as a whole, is longer than a system takes. -/
  | nameTooLong
  /-- The path holds a null character. -/
  | nullInPath
  /-- The bytes are not text. -/
  | notText
  /-- The system gave another reason. -/
  | refused (reason : String)
deriving DecidableEq, Repr

def FileFault.message : FileFault → String
  | .notFound => "No such file or directory (os error 2)"
  | .isDirectory => "Is a directory (os error 21)"
  | .notDirectory => "Not a directory (os error 20)"
  | .nameTooLong => "File name too long (os error 36)"
  | .nullInPath => "file name contained an unexpected NUL byte"
  | .notText => "stream did not contain valid UTF-8"
  | .refused reason => reason

/-! ## Paths -/

/-- A path, taken apart. -/
structure Path where
  /-- The path starts at the root. -/
  isAbsolute : Bool
  /-- The names between the slashes, without empty ones. -/
  names : List String
  /-- The path ends in a slash, so it can only mean a directory. -/
  endsInSlash : Bool
deriving DecidableEq, Repr

namespace Path

def maxName : Nat :=
  255

def maxLength : Nat :=
  4095

/-- Takes a path apart. The empty path leads nowhere. -/
def ofString (path : String) : Except FileFault Path :=
  if path.toList.contains '\x00' then .error .nullInPath
  else if path == "" then .error .notFound
  else if maxLength < path.utf8ByteSize then .error .nameTooLong
  else
    .ok
      { isAbsolute := path.toList.head? == some '/'
        names := (path.splitToList (· == '/')).filter (· != "")
        endsInSlash := path.toList.getLast? == some '/' }

end Path

/-- What stands at a place. -/
inductive Folder.Node where
  | file (content : ByteArray)
  | directory
  /-- A file that is always empty: what is written to it is lost. -/
  | void
  /-- Something that the system does not let us open. -/
  | closed (reason : String)

/-- A place: the names on the way to it. The first name is `/` below the root. -/
abbrev Folder.Place := List String

/-- Nodes by place. -/
structure Folder where
  nodes : List (Folder.Place × Folder.Node)

namespace Folder

def empty : Folder :=
  ⟨[]⟩

/-! ## Places -/

/-- The working directory or one above it. -/
def isAbove (place : Place) : Bool :=
  place.all (· == "..")

/-- The directories that a system keeps below its root. -/
def systemDirectories : List String :=
  ["bin", "boot", "dev", "etc", "home", "lib", "media", "mnt", "opt", "proc", "root", "run", "sbin",
    "srv", "sys", "tmp", "usr", "var"]

/-- What stands at a place whatever the folder holds. -/
def standing? (place : Place) : Option Node :=
  match place with
  | ["/"] => some .directory
  | ["/", name] => if name ∈ systemDirectories then some .directory else none
  | ["/", "dev", "null"] => some .void
  | place => if isAbove place then some .directory else none

def node? (folder : Folder) (place : Place) : Option Node :=
  match standing? place with
  | some node => some node
  | none => folder.nodes.lookup place

/-- The directory around a place. The root is its own. -/
def parent (place : Place) : Place :=
  if isAbove place then place ++ [".."] else if place == ["/"] then place else place.dropLast

/-- The place that a name means in a directory. -/
def child (place : Place) (name : String) : Except FileFault Place :=
  if name == "." then .ok place
  else if name == ".." then .ok (parent place)
  else if Path.maxName < name.utf8ByteSize then .error .nameTooLong
  else .ok (place ++ [name])

/-- Goes into directories, one after the other. -/
def walk (folder : Folder) (place : Place) : List String → Except FileFault Place
  | [] => .ok place
  | name :: names =>
    match child place name with
    | .error fault => .error fault
    | .ok place =>
      match folder.node? place with
      | none => .error .notFound
      | some .directory => folder.walk place names
      | some (.closed reason) => .error (.refused reason)
      | some (.file _) | some .void => .error .notDirectory

/-- Where a path starts. -/
def origin (path : Path) : Place :=
  if path.isAbsolute then ["/"] else []

/-- The directory that the last name of a path is looked up in. -/
def around (folder : Folder) (path : Path) : Except FileFault Place :=
  folder.walk (origin path) path.names.dropLast

/-- The place of the last name of a path, given its directory. -/
def leaf (directory : Place) (path : Path) : Except FileFault Place :=
  match path.names.getLast? with
  | none => .ok directory
  | some name => child directory name

/-- The place a path leads to. -/
def locate (folder : Folder) (path : Path) : Except FileFault Place :=
  match folder.around path with
  | .error fault => .error fault
  | .ok directory => leaf directory path

/-! ## Reading and writing -/

/-- Reads the bytes of a file. -/
def read (folder : Folder) (path : String) : Except FileFault ByteArray := do
  let path ← Path.ofString path
  let place ← folder.locate path
  match folder.node? place with
  | none => .error .notFound
  | some .directory => .error .isDirectory
  | some (.closed reason) => .error (.refused reason)
  | some .void => if path.endsInSlash then .error .notDirectory else .ok .empty
  | some (.file content) => if path.endsInSlash then .error .notDirectory else .ok content

def readText (folder : Folder) (path : String) : Except FileFault String :=
  match folder.read path with
  | .error fault => .error fault
  | .ok content =>
    match String.fromUTF8? content with
    | some text => .ok text
    | none => .error .notText

def put (folder : Folder) (place : Place) (node : Node) : Folder :=
  ⟨(place, node) :: folder.nodes.filter fun entry => entry.1 != place⟩

/-- Writes the text of a file, which is created if it is missing. A path that ends in a slash is
refused before its last name is looked up. -/
def writeText (folder : Folder) (path text : String) : Except FileFault Folder := do
  let path ← Path.ofString path
  let directory ← folder.around path
  if path.endsInSlash then .error .isDirectory
  else
    let place ← leaf directory path
    match folder.node? place with
    | some .directory => .error .isDirectory
    | some (.closed reason) => .error (.refused reason)
    | some .void => .ok folder
    | some (.file _) | none => .ok (folder.put place (.file text.toUTF8))

/-- Puts a node at a place, with directories on the way to it. -/
def plant (folder : Folder) (place : Place) (node : Node) : Folder :=
  let around := (List.range place.length).map fun n => place.take n
  (around.foldl (fun folder place => if (folder.node? place).isSome then folder
    else folder.put place .directory) folder).put place node

end Folder

end SeatMachine
