import FluidCss.Error
import FluidCss.Ordered

/-!
# Files

A set of files with the directories that hold them. A file holds a text, or bytes that are none, and
a program may be refused to enter, read or write. Paths are compared in a normal form, in which
single dots and repeated slashes are gone; going up is kept, because it needs the directory before
it to exist. A relative path begins in one of the directories, an absolute one at the root. -/

namespace FluidCss

/-- A path in normal form. -/
structure Path where
  /-- The slashes at the start, for an absolute path. -/
  root : String
  parts : List String
  deriving DecidableEq

namespace Path

/-- Two slashes at the start mean something else than one; more mean the same as one. -/
def rootOf (s : String) : String :=
  match (s.toList.takeWhile (· == '/')).length with
  | 0 => ""
  | 2 => "//"
  | _ => "/"

/-- The parts of a text between slashes. -/
def splitSlashes : List Char → List (List Char)
  | [] => [[]]
  | c :: cs =>
    match splitSlashes cs with
    | part :: parts => if c = '/' then [] :: part :: parts else (c :: part) :: parts
    | [] => [[c]]

/-- Reads a path; empty steps and steps to the same directory are left out. -/
def ofString (s : String) : Path :=
  ⟨rootOf s, ((splitSlashes s.toList).map String.ofList).filter fun p => p != "" && p != "."⟩

def toString (p : Path) : String :=
  if p.parts.isEmpty then (if p.root = "" then "." else p.root)
  else p.root ++ String.intercalate "/" p.parts

end Path

/-- The normal form of a path as text. -/
def normalPath (s : String) : String := (Path.ofString s).toString

/-- A place by its whole name: the steps that lead to it from the root. -/
abbrev Place := List String

/-- Makes every line end a line feed. -/
def unifyLines : Text → Text
  | .char '\r' :: .char '\n' :: cs => .char '\n' :: unifyLines cs
  | c :: cs => (if c = .char '\r' then .char '\n' else c) :: unifyLines cs
  | [] => []

/-- What a file holds. -/
inductive FileContent where
  | text (t : Text)
  /-- Bytes that are no text, and what is found when they are read as one. -/
  | garbled (fault : DecodeFault)
  deriving DecidableEq

/-- The text that a file holds, with its line ends made one kind. -/
def FileContent.decode : FileContent → Except Error Text
  | text t => .ok (unifyLines t)
  | garbled fault => .error (.undecodable fault)

/-- What a program may be refused. -/
inductive Access where
  /-- To pass through a directory. -/
  | enter
  | read
  /-- To write a file, or to make one in a directory. -/
  | write
  deriving DecidableEq

/-- Files. Directories are there as far as files and relative paths need them. -/
structure Files where
  /-- The directory in which relative paths begin. -/
  home : Place
  /-- What the files hold, by their places, in the order in which they came. -/
  contents : List (Place × FileContent)
  /-- What is refused at which place. -/
  refused : List (Place × Access)
  deriving DecidableEq

/-- What gives the content of the file that a path leads to. -/
abbrev Reader := String → Except FileFault FileContent

namespace Files

/-- What stands at a place. -/
inductive Entry where
  | file (content : FileContent)
  | directory
  | nothing
  deriving DecidableEq

/-- A directory is what leads to the place of a file or to where relative paths begin. -/
def isDirectory (files : Files) (place : Place) : Bool :=
  place.isPrefixOf files.home || files.contents.any fun (other, _) =>
    place.isPrefixOf other && place.length < other.length

def entry (files : Files) (place : Place) : Entry :=
  if files.isDirectory place then .directory
  else
    match Ordered.get? place files.contents with
    | some content => .file content
    | none => .nothing

/-- An access is refused at a place. -/
def refuses (files : Files) (place : Place) (access : Access) : Bool :=
  files.refused.contains (place, access)

/-- The bytes that one step of a path may have. -/
def nameLimit : Nat := 255

/-- The bytes that a path may have. -/
def pathLimit : Nat := 4095

/-- One step of a path, which can only start from a directory that may be entered. -/
def step (files : Files) (here : Place) (part : String) : Except FileFault Place :=
  match files.entry here with
  | .nothing => .error .missing
  | .file _ => .error .notDirectory
  | .directory =>
    if files.refuses here .enter then .error .denied
    else if part = ".." then .ok here.dropLast
    else if nameLimit < part.utf8ByteSize then .error .nameTooLong
    else .ok (here ++ [part])

def follow (files : Files) (path : String) : Except FileFault Place :=
  let p := Path.ofString path
  if p.toString.toList.contains '\x00' then .error .zeroInPath
  else if pathLimit < p.toString.utf8ByteSize then .error .nameTooLong
  else p.parts.foldlM files.step (if p.root = "" then files.home else [])

/-- Sets the content of a file, which may be new. -/
def put (files : Files) (place : Place) (content : FileContent) : Files :=
  { files with contents := Ordered.put place content files.contents }

/-- The directory in which the files of a list lie. -/
def listHome : Place := ["files"]

/-- The text files of a list, together with the directories that they need. Nothing is refused. -/
def ofList (entries : List (String × Text)) : Files :=
  entries.foldl
    (fun files (name, text) => files.put (files.home ++ (Path.ofString name).parts) (.text text))
    ⟨listHome, [], []⟩

/-- The text files under the directory in which relative paths begin, by the steps from there. -/
def entries (files : Files) : List (List String × Text) :=
  files.contents.filterMap fun (place, content) =>
    match content with
    | .text t =>
      if files.home.isPrefixOf place then some (place.drop files.home.length, t) else none
    | .garbled _ => none

/-- What the file holds that a path leads to. -/
def read (files : Files) (path : String) : Except FileFault FileContent := do
  let place ← files.follow path
  match files.entry place with
  | .nothing => throw .missing
  | .directory => throw (if files.refuses place .read then .denied else .directory)
  | .file content => if files.refuses place .read then throw .denied else return content

/-- The place at which a path lets a file be written. It may be new, and then its directory is
written to as well. -/
def target (files : Files) (path : String) : Except FileFault Place := do
  let place ← files.follow path
  match files.entry place with
  | .directory => throw .directory
  | .file _ => if files.refuses place .write then throw .denied else return place
  | .nothing => if files.refuses place.dropLast .write then throw .denied else return place

end Files

end FluidCss
