import TreeInsertion.CommandLine.Failure

/-!
# Directories

The files of one directory as a value, and what a path leads to from there.
-/

namespace TreeInsertion

namespace CommandLine

structure Directory where
  files : List (String × ByteArray)

namespace Directory

def file? (d : Directory) (name : String) : Option ByteArray :=
  (d.files.find? fun (n, _) => n == name).map Prod.snd

def maxNameSize : Nat :=
  255

/-- Follow the names of a path that has left the directory.  Nothing is known out there. -/
def followOutside : List String → FileError
  | [] => .isADirectory
  | name :: rest =>
      if name = ".." then followOutside rest
      else if maxNameSize < name.utf8ByteSize then .nameTooLong
      else .notFound

/-- Follow the names of a path, where `slash` tells that it ends as only a directory may. -/
def follow (d : Directory) (slash : Bool) : List String → Except FileError ByteArray
  | [] => .error .isADirectory
  | name :: rest =>
      if name = ".." then .error (followOutside rest)
      else if maxNameSize < name.utf8ByteSize then .error .nameTooLong
      else
        match d.file? name with
        | none => .error .notFound
        | some content => if rest.isEmpty && !slash then .ok content else .error .notADirectory

def read (d : Directory) (path : String) : Except FileError ByteArray :=
  if path.isEmpty then .error .notFound
  else if 4096 ≤ path.utf8ByteSize then .error .nameTooLong
  else
    let parts := path.splitOn "/"
    let names := parts.filter fun part => part != "" && part != "."
    if path.toList.head? == some '/' then .error (followOutside names)
    else d.follow (parts.getLast? == some "" || parts.getLast? == some ".") names

end Directory

end CommandLine

end TreeInsertion
