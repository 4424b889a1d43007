import Statewright.Text.Quoted

namespace Statewright

/-- Why a path cannot be opened. -/
inductive OpenError
  | missing | denied | notDirectory | isDirectory | nameTooLong
  /-- A path that no system call takes. -/
  | malformed
  deriving DecidableEq

namespace OpenError

/-- Number and wording of the system's error; a malformed path has none. -/
def cause? : OpenError → Option (Nat × Text)
  | missing => some (2, "No such file or directory")
  | denied => some (13, "Permission denied")
  | notDirectory => some (20, "Not a directory")
  | isDirectory => some (21, "Is a directory")
  | nameTooLong => some (36, "File name too long")
  | malformed => none

def message (e : OpenError) (path : Text) : Text :=
  match e.cause? with
  | some (number, wording) =>
    "[Errno " ++ Text.ofNat number ++ "] " ++ wording ++ ": " ++ path.quoted
  | none => "embedded null byte"

end OpenError

/-- Where a path starts: at the root, or so many levels above the working directory. -/
inductive Base
  | root
  | above (levels : Nat)
  deriving DecidableEq

/-- A file or directory by the names that lead to it. -/
structure Place where
  base : Base := .above 0
  names : List Text
  deriving DecidableEq

namespace Place

def isWithin (p directory : Place) : Bool :=
  p.base = directory.base && directory.names.isPrefixOf p.names

def child (p : Place) (name : Text) : Place :=
  { p with names := p.names ++ [name] }

/-- The directory that a place lies in; the root lies in itself. -/
def parent (p : Place) : Place :=
  match p.names, p.base with
  | [], .above n => { base := .above (n + 1), names := [] }
  | names, base => { base, names := names.dropLast }

end Place

/-- Files and directories; `locked` files can be read and removed, but not written. Above the
working directory nothing is known to be. -/
structure Store where
  files : List (Place × ByteArray) := []
  directories : List Place := []
  locked : List Place := []

namespace Store

def utf8 (t : Text) : ByteArray :=
  (String.ofList t).toUTF8

def file? (s : Store) (p : Place) : Option ByteArray :=
  s.files.lookup p

/-- Whether a place is a directory: one that is listed, or one that something lies in. -/
def isDirectory (s : Store) (p : Place) : Bool :=
  p.names.isEmpty || s.directories.any (·.isWithin p) ||
    s.files.any fun f => f.1.isWithin p && f.1 != p

def nameLimit : Nat := 255
def pathLimit : Nat := 4095

/-- One step down from a directory. -/
def enter (s : Store) (here : Place) (name : Text) : Except OpenError Place :=
  if name = ['.'] then .ok here
  else if name = ['.', '.'] then .ok here.parent
  else if nameLimit < (utf8 name).size then .error .nameTooLong
  else if s.isDirectory (here.child name) then .ok (here.child name)
  else if (s.file? (here.child name)).isSome then .error .notDirectory
  else .error .missing

/-- The file that the last name of a path stands for; `slash` tells that a slash follows it. -/
def last (s : Store) (here : Place) (name : Text) (slash writing : Bool) :
    Except OpenError Place :=
  if name = ['.'] ∨ name = ['.', '.'] then .error .isDirectory
  else if slash && writing then .error .isDirectory
  else if nameLimit < (utf8 name).size then .error .nameTooLong
  else if s.isDirectory (here.child name) then .error .isDirectory
  else if (s.file? (here.child name)).isSome then
    if slash then .error .notDirectory
    else if writing && s.locked.contains (here.child name) then .error .denied
    else .ok (here.child name)
  else if writing then .ok (here.child name)
  else .error .missing

/-- Where a file lies, or will lie if it is opened for writing. -/
def locate (s : Store) (path : Text) (writing : Bool) : Except OpenError Place :=
  if path.contains '\x00' then .error .malformed
  else if path.isEmpty then .error .missing
  else if pathLimit < (utf8 path).size then .error .nameTooLong
  else
    let names := (Text.split (· == '/') path).filter (!·.isEmpty)
    match names.getLast? with
    | none => .error .isDirectory
    | some name => do
      let base := if path.head? = some '/' then Base.root else .above 0
      let here ← names.dropLast.foldlM s.enter { base, names := [] }
      s.last here name (path.getLast? = some '/') writing

def read (s : Store) (path : Text) : Except OpenError ByteArray := do
  match s.file? (← s.locate path false) with
  | some bytes => return bytes
  | none => .error .missing

/-- Writes a whole file, in place of the one that was there. What could be opened is always
written. -/
def write (s : Store) (path text : Text) : Except OpenError Store := do
  let place ← s.locate path true
  return { s with files := s.files.filter (·.1 != place) ++ [(place, utf8 text)] }

/-- Removes the file that a path stands for, if there is one. -/
def discard (s : Store) (path : Text) : Store :=
  match s.locate path false with
  | .ok place => { s with files := s.files.filter (·.1 != place) }
  | .error _ => s

end Store
end Statewright
