import CodeAtlas.CommandLine.Run

/-!
The program itself: it takes the files that its arguments speak of from disk, and does what the
answer says.
-/

namespace CodeAtlas.CommandLine

open Source (Disk Entry)

/-- The tree at a path. Links in it are left out, and so are directories that are not looked into.
-/
partial def snapshot (path : String) : IO Entry := do
  let place ← IO.FS.realPath path
  if ← place.isDir then
    let mut entries := []
    for found in ← place.readDir do
      let isLink := (← found.path.symlinkMetadata).type matches .symlink
      let isHidden := found.fileName = "node_modules" || found.fileName = ".git"
      if !isLink && !isHidden then
        entries := (found.fileName, ← snapshot found.path.toString) :: entries
    return .directory entries
  else return .file (String.fromUTF8? (← IO.FS.readBinFile path))

def isOnDisk (path : String) : IO Bool :=
  try (← IO.FS.realPath path).pathExists
  catch _ => return false

/-- Adds what is at a path, and the directories on the way there. -/
def addPath (d : Disk) (path : String) : IO Disk := do
  let mut names := if FilePath.isRooted path then [] else d.workingDirectory
  let mut walked := ""
  let mut root := d.root
  for segment in FilePath.segments path.toList do
    let name := String.ofList segment
    walked := if walked.isEmpty && segment.isEmpty then "/" else FilePath.join walked name
    names := match segment with
      | [] | ['.'] => names
      | ['.', '.'] => names.dropLast
      | _ => names ++ [name]
    if (Entry.descend names root).toOption.isNone then
      if ← isOnDisk walked then
        root := (Entry.put true (.directory []) names root).toOption.getD root
  try
    return { d with root := (Entry.put true (← snapshot path) names root).toOption.getD root }
  catch _ => return { d with root := root }

/-- The paths that a command reads. -/
def pathsOf : Command → List String
  | .analyze path _ _ o | .graph path _ o => path :: o.config.toList
  | .file path o => [FilePath.join (directoryOf path) Config.fileName, path] ++ o.config.toList
  | .version | .greeting => []

/-- The part of the disk that the arguments speak of. -/
def diskFor (arguments : List String) : IO Disk := do
  let working := (FilePath.normal (← IO.FS.realPath ".").toString).names
  let root := (Entry.put true (.directory []) working (.directory [])).toOption.getD (.directory [])
  let paths := ((parse arguments).toOption.map pathsOf).getD []
  paths.foldlM addPath ⟨root, working⟩

end CodeAtlas.CommandLine

open CodeAtlas.CommandLine in
def main (arguments : List String) : IO UInt32 := do
  match answer (← diskFor arguments) arguments with
  | .print text => IO.print text; return 0
  | .write path text =>
    try
      IO.FS.writeFile path text
      IO.eprintln ("Report written to " ++ path)
      return 0
    catch e =>
      IO.eprintln ("Error: Failed to write report to " ++ path ++ "\n" ++ toString e)
      return 1
  | .fail message => IO.eprintln ("Error: " ++ message); return 1
  | .misuse e => IO.eprintln ("error: " ++ e.message); return 2
