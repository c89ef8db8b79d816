import CommandReference.CommandLine.Report

/-! The program. It takes a copy of the directories that a command line is about,
carries out the command line on the copy, and makes the changes real. -/

namespace CommandReference.CommandLine

def Invocation.paths (invocation : Invocation) : List Path :=
  let out :=
    match invocation.command with
    | .compile out _ => [out]
    | .lookup _ | .index => []
  invocation.corpus.root :: invocation.config?.toList ++ out

def settingDirectories (root : Path) (settings : Configuration) : List Path :=
  (settings.moduleDirectory :: settings.searchDirectories).map root.join

/-- The directories that a path leads through, from the outermost one to the one
that it names. -/
def ways (path : Path) : List Path :=
  (List.range (path.rest.length + 1)).map fun length =>
    ⟨path.first, path.rest.take length⟩

/-- Where a path from the current directory leads in the absence of links. -/
def placeOf (tree : FileTree) (path : Path) : Place :=
  let directory : Path := ⟨"", tree.current⟩
  (directory.join path).location.drop 1

inductive Found where
  | nothing
  | file (contents : Bytes)
  | directory (names : List String)

def look (path : Path) : IO Found := do
  let text := if path = Path.empty then "." else path.text
  try
    let place ← IO.FS.realPath text
    if ← place.isDir then
      let entries ← place.readDir
      return .directory (entries.toList.map (·.fileName))
    else return .file (← IO.FS.readBinFile place).toList
  catch _ => return .nothing

/-- Add the directories that lead to a path, and a file that is in the way. -/
def copyWay (tree : FileTree) (path : Path) : IO FileTree :=
  (ways path).foldlM
    (fun tree way => do
      match ← look way with
      | .nothing => return tree
      | .file contents => return tree.after (FileAction.put (placeOf tree way) (.file contents))
      | .directory _ => return tree.after (FileAction.put (placeOf tree way) .directory))
    tree

partial def copyBelow (tree : FileTree) (path : Path) : IO FileTree := do
  match ← look path with
  | .nothing => return tree
  | .file contents => return tree.after (FileAction.put (placeOf tree path) (.file contents))
  | .directory names =>
      let tree := tree.after (FileAction.put (placeOf tree path) .directory)
      names.foldlM (fun tree name => copyBelow tree (path.joinText name)) tree

def copy (tree : FileTree) (paths : List Path) : IO FileTree :=
  paths.foldlM (fun tree path => do copyBelow (← copyWay tree path) path) tree

def copyFor (words : List String) : IO FileTree := do
  let current := Path.ofText (← IO.currentDir).toString
  let tree := FileTree.atPlace (current.location.drop 1)
  match Invocation.ofWords words with
  | .error _ => return tree
  | .ok invocation =>
      let tree ← copy tree invocation.paths
      match configuration tree invocation with
      | .error _ => return tree
      | .ok settings => copy tree (settingDirectories invocation.corpus.root settings)

def makeReal (before after : FileTree) : IO Unit :=
  after.nodes.entries.forM fun (place, node) => do
    if before.node? place ≠ some node then
      let text := (Path.mk "" place).text
      match node with
      | .directory => IO.FS.createDir text
      | .file contents => IO.FS.writeBinFile text ⟨contents.toArray⟩

partial def runToTheEnd (tree : FileTree) (words : List String) (steps : Nat) :
    IO (Report × FileTree) :=
  match run tree words steps with
  | some result => return result
  | none => runToTheEnd tree words (2 * steps + 1)

end CommandReference.CommandLine

def main (words : List String) : IO UInt32 := do
  let before ← CommandReference.CommandLine.copyFor words
  let (report, after) ← CommandReference.CommandLine.runToTheEnd before words 1000
  CommandReference.CommandLine.makeReal before after
  report.log.forM fun warning => IO.eprintln s!"WARN {warning.message}"
  IO.print report.output
  IO.eprint report.errors
  return report.status.toUInt32
