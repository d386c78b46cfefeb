import DeadCode.CommandLine
import Std.Time

/- The program. It surveys the part of the disk that a check can ask about, runs the check on what it
   saw, and carries out what the outcome says. The system takes names as text only, so a survey passes
   over files whose names are none, as over those that it may not look at. -/
namespace DeadCode.Main

abbrev Survey := StateT FileTree IO

def textOf (location : Location) : String := "/" ++ FileTree.key location

def locationOf (path : String) : Location := (Text.segments '/' path).filter (· != "")

/-- Only sources and the files that steer a check are read. -/
def isRead (name : String) : Bool :=
  Collect.isSourceName name ||
    [".ignore", ".gitignore", ".gitconfig", "exclude", "config", "ignore"].contains name

def entryAt (location : Location) : IO (Option Entry) := do
  let place : IO.FS.DirEntry := { root := textOf location, fileName := "" }
  try
    match (← place.root.symlinkMetadata).type with
    | .dir => return some .directory
    | .symlink => return some (.link (← IO.FS.realPath place.root).toString)
    | .file =>
      if isRead (location.getLastD "") then return some (.file (← IO.FS.readBinFile place.root))
      else return some (.file ByteArray.empty)
    | .other => return none
  catch _ => return none

def look (location : Location) : Survey (Option Entry) := do
  let found ← entryAt location
  if let some entry := found then modify (·.put location entry)
  return found

partial def trace (here : Location) : List String → Survey Location
  | [] => return here
  | name :: rest =>
    if name == "" || name == "." then trace here rest
    else if name == ".." then trace here.dropLast rest
    else do
      match ← look (here ++ [name]) with
      | some (.link target) => trace (← trace [] (locationOf target)) rest
      | _ => trace (here ++ [name]) rest

def tracePath (workingDirectory : Location) (path : String) : Survey Location :=
  if Text.startsWith path "/" then trace [] (locationOf path)
  else trace workingDirectory (Text.segments '/' path)

def lookAtRules (directory : Location) : Survey Unit := do
  for names in [[".ignore"], [".gitignore"], [".git"], [".jj"], [".git", "info", "exclude"]] do
    discard (trace directory names)

partial def explore (exclude : List String) (directory : Location) : Survey Unit := do
  lookAtRules directory
  let place : IO.FS.DirEntry := { root := textOf directory, fileName := "" }
  let listed ← try place.root.readDir catch _ => pure #[]
  for item in listed do
    let location ← trace directory [item.fileName]
    if location == directory ++ [item.fileName] && (← get).isDirectory location &&
        !Collect.isExcluded exclude item.fileName then
      explore exclude location

def survey (options : Options) (workingDirectory : Location) (home : Option Location) :
    Survey Unit := do
  discard (trace [] workingDirectory)
  for directory in workingDirectory :: IgnoreRules.above workingDirectory do lookAtRules directory
  if let some home := home then
    discard (trace [] home)
    for names in [[".gitconfig"], [".config", "git", "config"], [".config", "git", "ignore"]] do
      discard (trace home names)
  if let some path := options.output then
    let target ← tracePath workingDirectory path
    if let some (.file _) := (← get).find? target then
      let content ← IO.FS.readBinFile (textOf target)
      modify (·.put target (.file content))
  let seen : FileSystem := { base := "", tree := ← get, workingDirectory, home }
  if let some home := home then
    discard (tracePath workingDirectory (IgnoreRules.excludesPath seen home))
  let root ← match options.root with
    | some path => tracePath workingDirectory path
    | none => pure ((Options.repositoryRoot seen).toOption.map locationOf |>.getD workingDirectory)
  for directory in IgnoreRules.above root do lookAtRules directory
  if (← get).isDirectory root then explore options.exclude root

def changes (before after : FileTree) : List (Location × ByteArray) :=
  after.entries.toList.filterMap fun (key, entry) =>
    match entry with
    | .file content =>
      match before.entries.get? key with
      | some (.file old) =>
        if old.data == content.data then none else some (Text.segments '/' key, content)
      | _ => some (Text.segments '/' key, content)
    | _ => none

def timestamp : IO String := do
  let now ← Std.Time.Timestamp.now
  return (Std.Time.DateTime.ofTimestamp now Std.Time.TimeZone.ZoneRules.UTC).format
    "uuuu-MM-dd'T'HH:mm:ss'Z'"

def run (words : List String) : IO UInt32 := do
  let started ← IO.monoMsNow
  let workingDirectory := locationOf (← IO.currentDir).toString
  let home := (← IO.getEnv "HOME").map locationOf
  let options := match Options.ofWords (words.drop 1) with
    | .ok options => options
    | .error _ => {}
  let ((), tree) ← (survey options workingDirectory home).run {}
  let fs : FileSystem := { base := "", tree, workingDirectory, home }
  let surroundings : CommandLine.Surroundings := {
    timestamp := ← timestamp
    elapsed := toString ((← IO.monoMsNow) - started)
    workers := "1"
    coloured := ← (← IO.getStdout).isTty }
  let outcome := CommandLine.run surroundings fs words
  for (location, content) in changes tree outcome.fs.tree do
    IO.FS.writeBinFile (textOf location) content
  IO.print outcome.stdout
  IO.eprint outcome.stderr
  return outcome.exit.toUInt32

end DeadCode.Main

def main (words : List String) : IO UInt32 := DeadCode.Main.run words
