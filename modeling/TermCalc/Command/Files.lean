import TermCalc.Failure

/-!
# Files

Where a path leads: a path is followed part by part from the directory in which a command line is
carried out, or from the root, and every part but the last has to be a directory.

* `pathParts`, `tidyPath`: a path without the parts that lead nowhere.
* `Files`, `Files.read`: texts by their paths, and the text that a path leads to.
-/

namespace TermCalc

/-- The part with which paths from the root begin. -/
def rootPart : String := "/"

/-- **The parts of a path**, less empty ones and those that stay in place. -/
def pathParts (path : String) : List String :=
  let parts := (path.splitOn "/").filter fun part => part != "" && part != "."
  if path.toList.head? == some '/' then rootPart :: parts else parts

/-- A path with nothing but its parts. -/
def tidyPath (path : String) : String :=
  match pathParts path with
  | [] => "."
  | part :: parts =>
    if part == rootPart then rootPart ++ String.intercalate "/" parts
    else String.intercalate "/" (part :: parts)

/-- The bytes that a part of a path may have. -/
def longestPart : Nat := 255

/-- The bytes that a path may have. -/
def longestPath : Nat := 4095

/-- **Texts by the parts of their paths.** A path that goes on to a file is a directory. -/
structure Files where
  entries : List (List String × String)

namespace Files

variable (files : Files)

/-- Files by their paths. -/
def ofList (texts : List (String × String)) : Files :=
  ⟨texts.map fun (path, text) => (pathParts path, text)⟩

/-- The directory above one. There is none above the root, and of what lies above the directory of
the command line, for which `none` stands, nothing is known. -/
def above : Option (List String) → Option (List String)
  | none | some [] => none
  | some [part] => some (if part == rootPart then [part] else [])
  | some (part :: parts) => some (part :: parts.dropLast)

/-- **Follow the parts of a path** from a directory. -/
def follow (directory : Option (List String)) : List String → Except FileFault String
  | [] => .error .isDirectory
  | part :: rest =>
    if part == ".." then follow (above directory) rest
    else if longestPart < part.utf8ByteSize then .error .tooLong
    else
      match directory with
      | none => .error .missing
      | some parts =>
        let here := parts ++ [part]
        match files.entries.lookup here with
        | some text => if rest.isEmpty then .ok text else .error .notDirectory
        | none =>
          if part == rootPart || files.entries.any fun entry => here.isPrefixOf entry.1 then
            follow (some here) rest
          else .error .missing

/-- **The text that a path leads to**, or why there is none. -/
def read (path : String) : Except FileFault String :=
  if path.toList.contains '\x00' then .error .nullInPath
  else if longestPath < (tidyPath path).utf8ByteSize then .error .tooLong
  else files.follow (some []) (pathParts path)

end Files

end TermCalc
