/-!
Creating a file from an empty working directory. A path is a list of names divided by one or
more slashes. All names but the last lead from directory to directory, where a dot stays and
two dots go up; the last one is the file. Around the working directory only what every system
has is known: a root with `dev` and `tmp`, and a device `null`. Elsewhere no names are known,
and a file made there is not in the working directory.
-/

namespace TreeCompiler.Directory

/-- Why a path makes no file. -/
inductive Failure where
  | noEntry
  | notADirectory
  | isADirectory
  | nameTooLong
deriving DecidableEq, Repr

def Failure.message : Failure → String
  | noEntry => "No such file or directory (os error 2)"
  | notADirectory => "Not a directory (os error 20)"
  | isADirectory => "Is a directory (os error 21)"
  | nameTooLong => "File name too long (os error 36)"

/-- The most bytes that a name has. -/
def maxNameSize : Nat := 255

/-- The most bytes that a path has. -/
def maxPathSize : Nat := 4095

/-- A directory on the way: the working directory, one above it, or one that every system
has. -/
inductive Place where
  | working
  | above
  | root
  | dev
  | tmp
deriving DecidableEq, Repr

def Place.parent : Place → Place
  | working | above => above
  | root | dev | tmp => root

inductive Entry where
  | directory (p : Place)
  | device
deriving DecidableEq, Repr

def Place.entry? : Place → String → Option Entry
  | root, "dev" => some (.directory .dev)
  | root, "tmp" => some (.directory .tmp)
  | dev, "null" => some .device
  | _, _ => none

/-- The directory that a name leads to. -/
def Place.enter (p : Place) (name : String) : Except Failure Place :=
  if name == "." then .ok p
  else if name == ".." then .ok p.parent
  else if maxNameSize < name.utf8ByteSize then .error .nameTooLong
  else
    match p.entry? name with
    | some (.directory q) => .ok q
    | some .device => .error .notADirectory
    | none => .error .noEntry

/-- Opens the last name of a path for writing, and returns the file that this leaves in the
working directory. A slash behind the name asks for a directory. -/
def Place.create (p : Place) (name : String) (slash : Bool) : Except Failure (Option String) :=
  if name == "." || name == ".." || slash then .error .isADirectory
  else if maxNameSize < name.utf8ByteSize then .error .nameTooLong
  else
    match p.entry? name with
    | some (.directory _) => .error .isADirectory
    | some .device => .ok none
    | none => .ok (if p = .working then some name else none)

def Place.follow (p : Place) (slash : Bool) : List String → Except Failure (Option String)
  | [] => .error .isADirectory
  | [name] => p.create name slash
  | name :: rest => do
    let q ← p.enter name
    q.follow slash rest

/-- Creates the file that a path names, seen from the working directory. -/
def create (path : String) : Except Failure (Option String) :=
  if path.isEmpty then .error .noEntry
  else if maxPathSize < path.utf8ByteSize then .error .nameTooLong
  else
    let start : Place := if path.startsWith "/" then .root else .working
    start.follow (path.endsWith "/") ((path.splitOn "/").filter (· ≠ ""))

end TreeCompiler.Directory
