/-
# Files

A file tree holds directories and files under their locations: the lists of names on the way
from the root.  One location is the working directory.  A path is followed name by name, an
absolute one from the root and any other from the working directory; `..` leads to the
directory above, and at the root it stays there.

| reading fails because | error |
| --- | --- |
| the path, or a directory on it, does not exist | `absent` |
| something on the path is a file and not a directory | `notDirectory` |
| the path leads to a directory | `isDirectory` |
| a name has more than 255 bytes, or the path more than 4095 | `nameTooLong` |
| the path holds a zero character | `zeroInName` |
| the content is not UTF-8 | `notText` |
-/

import Retarget.FilePath

namespace Retarget

/-- Why a file cannot be read or written. -/
inductive FileError where
  | absent
  | notDirectory
  | isDirectory
  | nameTooLong
  | zeroInName
  | notText
  | other (text : String)
  deriving DecidableEq, Repr, Inhabited

/-- The text of the error. -/
def FileError.message : FileError → String
  | absent => "No such file or directory (os error 2)"
  | notDirectory => "Not a directory (os error 20)"
  | isDirectory => "Is a directory (os error 21)"
  | nameTooLong => "File name too long (os error 36)"
  | zeroInName => "file name contained an unexpected NUL byte"
  | notText => "stream did not contain valid UTF-8"
  | other text => text

/-- The bytes of a file. -/
abbrev Bytes := List UInt8

/-- Where something lies: the names on the way from the root. -/
abbrev Location := List String

/-- What lies at a location. -/
inductive FileEntry where
  | directory
  | file (content : Bytes)
  deriving DecidableEq, Repr

/-- Directories and files, and the directory from which paths lead that are not absolute. -/
structure FileTree where
  workingDirectory : Location
  entries : List (Location × FileEntry)
  deriving Repr

namespace FileTree

/-- A root with nothing in it, where one works. -/
def empty : FileTree := ⟨[], []⟩

/-- What lies at a location. -/
def entry? (t : FileTree) (l : Location) : Option FileEntry :=
  if l = [] then some .directory else t.entries.lookup l

/-- The tree with something at a location. -/
def put (t : FileTree) (l : Location) (e : FileEntry) : FileTree :=
  { t with entries := t.entries.filter (·.1 != l) ++ [(l, e)] }

/-- The directories on the way to a location. -/
def parents (l : Location) : List Location := (List.range l.length).map l.take

/-- The tree with something at a location and the directories on the way to it. -/
def add (t : FileTree) (l : Location) (e : FileEntry) : FileTree :=
  let dirs := (parents l).filter fun d => (t.entry? d).isNone
  (dirs.foldl (fun t d => t.put d .directory) t).put l e

/-- The bytes of a text. -/
def bytesOf (s : String) : Bytes := s.toUTF8.toList

/-- That a directory lies at a location, or the reason why none does. -/
def directory (t : FileTree) (l : Location) : Except FileError Unit :=
  match t.entry? l with
  | some .directory => .ok ()
  | some (.file _) => .error .notDirectory
  | none => .error .absent

/-- One name further from a directory. -/
def descend (t : FileTree) (l : Location) (name : String) : Except FileError Location := do
  t.directory l
  if name = "" || name = "." then return l
  else if name = ".." then
    t.directory l.dropLast
    return l.dropLast
  else if 255 < name.utf8ByteSize then throw .nameTooLong
  else return l ++ [name]

/-- Where a path leads from a location. -/
def walk (t : FileTree) (l : Location) (path : List Char) : Except FileError Location :=
  (Text.pieces '/' path).foldlM (fun l name => t.descend l (String.ofList name)) l

/-- The location from which a path leads. -/
def start (t : FileTree) (path : List Char) : Location :=
  if FilePath.isAbsolute path then [] else t.workingDirectory

/-- Where a path leads to. -/
def follow (t : FileTree) (path : String) : Except FileError Location :=
  let cs := path.toList
  if cs.contains '\x00' then .error .zeroInName
  else if cs = [] then .error .absent
  else if 4095 < path.utf8ByteSize then .error .nameTooLong
  else t.walk (t.start cs) cs

/-- The path leads to a file or directory. -/
def exists? (t : FileTree) (path : String) : Bool :=
  match t.follow path with
  | .ok l => (t.entry? l).isSome
  | .error _ => false

/-- The text of the file that a path leads to. -/
def read (t : FileTree) (path : String) : Except FileError String := do
  match t.entry? (← t.follow path) with
  | none => throw .absent
  | some .directory => throw .isDirectory
  | some (.file content) =>
    match String.fromUTF8? ⟨content.toArray⟩ with
    | some s => return s
    | none => throw .notText

/-- The path without separators at its end. -/
def withoutSlash (path : String) : String :=
  String.ofList (path.toList.reverse.dropWhile (· = '/')).reverse

/-- The tree after a text was written to the file that a path leads to.  A separator at the
end of the path says that it leads to a directory. -/
def write (t : FileTree) (path : String) (text : String) : Except FileError FileTree := do
  let slash := path.toList.getLast? = some '/'
  let l ← t.follow (if slash && withoutSlash path ≠ "" then withoutSlash path else path)
  if slash || t.entry? l = some .directory then throw .isDirectory
  else return t.put l (.file (bytesOf text))

/-- The files with their bytes. -/
def files (t : FileTree) : List (Location × Bytes) :=
  t.entries.filterMap fun (l, e) =>
    match e with
    | .file content => some (l, content)
    | .directory => none

/-- The files that are not in another tree with the same bytes. -/
def since (t before : FileTree) : List (Location × Bytes) :=
  t.files.filter fun (l, content) => before.entry? l != some (.file content)

end FileTree
end Retarget
