import ContractFlow.Loading.FileTree
import ContractFlow.Options
import ContractFlow.Program

/-!
Loading programs: from a syntax tree and a source file, or by running the compiler on a source file
and taking the syntax tree it writes.
-/

namespace ContractFlow

/-- What a run of the compiler does. -/
structure CompilerRun where
  /-- The files that are written, with their contents. -/
  writes : List (String × List UInt8)
  /-- The exit status, which is a byte; none if the run was killed. -/
  status : Option UInt8
  stderr : List UInt8

/-- The status that is reported for a run, which is -1 if it was killed. -/
def CompilerRun.reportedStatus (run : CompilerRun) : Int :=
  match run.status with
  | some status => status.toNat
  | none => -1

/-- A compiler is what a run with some arguments does. -/
abbrev Compiler : Type := List String → CompilerRun

namespace Loading

/-- The path of the syntax tree that the compiler writes for a source file. -/
def treePath (outputDirectory sourcePath : String) : Except Error String :=
  match Path.fileName? sourcePath with
  | some name => .ok (Path.join outputDirectory (name ++ "_json.ast"))
  | none => .error (.missingTree outputDirectory)

/-- The path of the syntax tree that the compiler has written for a source file. -/
def findTree (files : FileTree) (outputDirectory sourcePath : String) : Except Error String := do
  let path ← treePath outputDirectory sourcePath
  if files.isFile path then return path else throw (.missingTree path)

/-- Loads a program from a syntax tree and the source it was made from. -/
def fromFiles (files : FileTree) (treePath sourcePath : String) : Except Error Program := do
  let tree ← files.read treePath
  let source ← files.read sourcePath
  Program.ofText tree source

def compilerArguments (o : Options) (sourcePath : String) : List String :=
  ["-o", o.outputDirectory, "--ast-compact-json", "--overwrite", sourcePath]

/-- Runs the compiler, if there is one, and finds the syntax tree it has written. No tree is looked
for if the run fails. -/
def compile (files : FileTree) (compiler : Option Compiler) (o : Options) (sourcePath : String) :
    Except Error (String × FileTree) :=
  match compiler with
  | none => .error (.file .notFound)
  | some compiler =>
    let run := compiler (compilerArguments o sourcePath)
    let files := run.writes.foldl (fun files (path, content) => files.write path content) files
    if run.status = some 0 then do
      return (← findTree files o.outputDirectory sourcePath, files)
    else .error (.compilerFailed run.reportedStatus (Utf8.decodeLossy run.stderr))

/-- Loads a program by compiling its source. -/
def fromSource (files : FileTree) (compiler : Option Compiler) (o : Options) (sourcePath : String) :
    Except Error Program := do
  let (treePath, files) ← compile files compiler o sourcePath
  fromFiles files treePath sourcePath

end Loading

end ContractFlow
