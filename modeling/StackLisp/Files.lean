/-!
# Files

Programs load other files by path. The interpreter sees files through `FileAnswer`: the text of a
file, why it has none, or that it has not been asked for yet. `FileTree` answers from a fixed
directory, following a path component by component. Around that directory lie others, up to a root
of which nothing else is known.
-/

namespace StackLisp

/-- Why a path gives no text. -/
inductive FileFault where
  | missing
  | isDirectory
  | notDirectory
  /-- A path, or one of its components, exceeds what a file system takes. -/
  | nameTooLong
  /-- A path holds the character that ends file names. -/
  | embeddedNul
  | invalidUtf8
  | other (text : String)
deriving DecidableEq

/-- The wording of a file fault. -/
def FileFault.message : FileFault → String
  | .missing => "No such file or directory (os error 2)"
  | .isDirectory => "Is a directory (os error 21)"
  | .notDirectory => "Not a directory (os error 20)"
  | .nameTooLong => "File name too long (os error 36)"
  | .embeddedNul => "file name contained an unexpected NUL byte"
  | .invalidUtf8 => "stream did not contain valid UTF-8"
  | .other text => text

/-- The file fault that an error number of the system stands for. -/
def FileFault.ofNumber? (number : Nat) : Option FileFault :=
  if number = 2 then some .missing
  else if number = 20 then some .notDirectory
  else if number = 21 then some .isDirectory
  else if number = 36 then some .nameTooLong
  else none

/-- The most bytes that a path may have. -/
def maxPathBytes : Nat := 4095

/-- The most bytes that a component of a path may have. -/
def maxComponentBytes : Nat := 255

/-- What is wrong with a path as such, before any file is looked for. -/
def FileFault.ofPath? (path : String) : Option FileFault :=
  if path.toList.contains '\x00' then some .embeddedNul
  else if path = "" then some .missing
  else if maxPathBytes < path.utf8ByteSize then some .nameTooLong
  else none

/-- What is known about the file at a path. -/
inductive FileAnswer where
  | text (content : String)
  | fault (cause : FileFault)
  /-- Nobody has looked yet. -/
  | unread
deriving DecidableEq

/-- An entry of a directory tree. -/
inductive FileEntry where
  | directory
  | file (answer : FileAnswer)
deriving DecidableEq

/-- The entry of a file with the given bytes. -/
def FileEntry.ofBytes (bytes : ByteArray) : FileEntry :=
  match String.fromUTF8? bytes with
  | some content => .file (.text content)
  | none => .file (.fault .invalidUtf8)

/-- The entry of a text file. -/
def FileEntry.ofText (content : String) : FileEntry :=
  .file (.text content)

/-- A directory: its files and directories at any depth, by the components of their paths. -/
structure FileTree where
  /-- Entries by path. -/
  entries : List (List String × FileEntry) := []

namespace FileTree

/-- A component that stays where it is: an empty one between two slashes, or a single dot. -/
def isIdle (component : String) : Bool :=
  component = "" || component = "."

/-- A tree with one more entry. -/
def add (tree : FileTree) (path : String) (entry : FileEntry) : FileTree :=
  { entries := tree.entries ++ [((path.splitOn "/").filter (!isIdle ·), entry)] }

/-- The entry at the given components. Directories above an entry exist with it. -/
def entry? (tree : FileTree) (path : List String) : Option FileEntry :=
  if path.isEmpty then some .directory
  else match tree.entries.lookup path with
    | some entry => some entry
    | none =>
      if tree.entries.any fun e => path.isPrefixOf e.1 then some .directory else none

/-- Follow components through the directories around the tree: only the way up is known there. -/
def followAround : List String → FileAnswer
  | [] => .fault .isDirectory
  | component :: rest =>
    if isIdle component || component = ".." then followAround rest
    else if maxComponentBytes < component.utf8ByteSize then .fault .nameTooLong
    else .fault .missing

/-- Follow components from a place whose own components are given in reverse. -/
def follow (tree : FileTree) (reversed : List String) : List String → FileAnswer
  | [] =>
    match tree.entry? reversed.reverse with
    | some (.file answer) => answer
    | some .directory => .fault .isDirectory
    | none => .fault .missing
  | component :: rest =>
    match tree.entry? reversed.reverse with
    | some .directory =>
      if isIdle component then tree.follow reversed rest
      else if component = ".." then
        match reversed with
        | [] => followAround rest
        | _ :: above => tree.follow above rest
      else if maxComponentBytes < component.utf8ByteSize then .fault .nameTooLong
      else tree.follow (component :: reversed) rest
    | some (.file _) => .fault .notDirectory
    | none => .fault .missing

/-- The file at a path. An absolute path starts outside the tree. -/
def read (tree : FileTree) (path : String) : FileAnswer :=
  match FileFault.ofPath? path with
  | some fault => .fault fault
  | none =>
    let components := path.splitOn "/"
    if components.head? = some "" then followAround components else tree.follow [] components

end FileTree

end StackLisp
