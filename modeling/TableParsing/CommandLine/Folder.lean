import TableParsing.CommandLine.Execution

/-!
# Folders

A file system of one folder with its files, for running a command away from any real one.
-/
namespace TableParsing.CommandLine

abbrev Folder := List (String × Bytes)

/-- The parts of a relative path; an absolute path leads out of the folder. -/
def pathParts (path : String) : Option (List String) :=
  if path.startsWith "/" then none
  else some ((path.splitOn "/").filter fun part => part != "" && part != ".")

namespace Folder

def nameOf (path : String) : Option String := (pathParts path).map (String.intercalate "/")

def read (folder : Folder) (path : String) : Except ReadFault Bytes :=
  match (nameOf path).bind fun name => folder.find? (·.1 == name) with
  | some (_, bytes) => .ok bytes
  | none => .error .notFound

/-- Whether some file lies in the folder below `parts`. -/
def hasFolder (folder : Folder) (parts : List String) : Bool :=
  parts.isEmpty || folder.any fun (name, _) =>
    let own := name.splitOn "/"
    parts.isPrefixOf own && parts.length < own.length

/-- A file can be written only into a folder that exists. -/
def refusal (folder : Folder) (path : String) : Option ReadFault :=
  match pathParts path with
  | some parts => if hasFolder folder parts.dropLast then none else some .notFound
  | none => some .notFound

def files (folder : Folder) : Files := ⟨folder.read, folder.refusal⟩

end Folder

end TableParsing.CommandLine
